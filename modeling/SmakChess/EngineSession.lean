import SmakChess.Whisperer
import Mathlib.Data.Bool.AllAny

/-! The engine from its start on: the handshake of `start_uci`, `new_game` and the
searches of one process, whose reads share one pipe. -/

namespace SmakChess

open Streams

def uciokWord : List Char := "uciok".toList

def readyokWord : List Char := "readyok".toList

/-- What the engine says to one command. -/
structure Reply where
  body : List Char
  last : List Char
  ended : Ended isNewline body
  line : ∀ c ∈ last, isNewline c = false

def Reply.text (r : Reply) : List Char := r.body ++ (r.last ++ ['\n'])

/-- The answer to `isready`. -/
def Reply.readyok : Reply where
  body := []
  last := readyokWord
  ended := by simp [Ended]
  line := List.all_iff_forall_prop.mp (by decide)

/-- The answer to `uci`: the name, the authors and the options, and `uciok`. -/
structure UciAnswer where
  body : List Char
  ended : Ended isNewline body
  bestmove : ¬ bestmoveWord <:+: body
  readyok : ¬ readyokWord <:+: body

def UciAnswer.reply (u : UciAnswer) : Reply where
  body := u.body
  last := uciokWord
  ended := u.ended
  line := List.all_iff_forall_prop.mp (by decide)

def Answer.reply (a : Answer) : Reply where
  body := a.infoText
  last := a.bestmove
  ended := ended_infoText a
  line := a.bestmove_line

/-- A search whose best move line is as UCI has it: the word once, and no score. -/
structure UciCall extends Call where
  once : ¬ bestmoveWord <:+: answer.bestmove.tail
  unscored : search scoreAt answer.bestmove = none
  readyok : ¬ readyokWord <:+: answer.text

/-! `read_engine_with_timeout` after a command. -/

def hasWord (w read : List Char) : Bool := decide (w <:+: read)

namespace Pipe

variable (s : Pipe)

def streamOf (r : Reply) : List (Nat × Char) := s.unread ++ r.text.map (Prod.mk s.calls)

def readOf (w : List Char) (r : Reply) (sizes : List Nat) : List (Nat × Char) :=
  readUntil (hasWord w ∘ chars) [] (piecesOf (s.streamOf r) sizes)

def ask (w : List Char) (r : Reply) (sizes : List Nat) : Pipe where
  unread := (s.streamOf r).drop (s.readOf w r sizes).length
  calls := s.calls + 1

def checkEngineIsready (sizes : List Nat) : Bool × Pipe :=
  (hasWord readyokWord (chars (s.readOf readyokWord .readyok sizes)), s.ask readyokWord .readyok sizes)

/-- `start_uci`. Its last two commands have no answer. -/
def startUci (u : UciAnswer) (sizes readySizes : List Nat) : Bool × Pipe :=
  if s.readOf uciokWord u.reply sizes = [] then (false, s.ask uciokWord u.reply sizes)
  else (s.ask uciokWord u.reply sizes).checkEngineIsready readySizes

/-- `new_game`, which does not look whether the engine is ready. -/
def newGame (sizes : List Nat) : Pipe := (s.checkEngineIsready sizes).2

end Pipe

inductive Op
  | startUci (u : UciAnswer) (sizes readySizes : List Nat)
  | newGame (sizes : List Nat)
  | search (c : UciCall)

def Pipe.apply (s : Pipe) : Op → Pipe
  | .startUci u sizes readySizes => (s.startUci u sizes readySizes).2
  | .newGame sizes => s.newGame sizes
  | .search c => s.call c.toCall

/-- Whether no search has been given up since the engine was last known to be ready, and
whether every answer to `isready` has been read. -/
structure Track where
  calm : Bool
  settled : Bool
  deriving DecidableEq, Repr

def Track.checked (t : Track) (ready : Bool) : Track := ⟨t.calm || t.settled && ready, t.settled && ready⟩

def Track.step (t : Track) (s : Pipe) : Op → Track
  | .startUci u sizes readySizes =>
    if s.readOf uciokWord u.reply sizes = [] then t
    else t.checked (s.startUci u sizes readySizes).1
  | .newGame sizes => t.checked (s.checkEngineIsready sizes).1
  | .search c => { t with calm := t.calm && hasBestmove (chars (s.read c.toCall)) }

def Track.run : Track → Pipe → List Op → Track
  | t, _, [] => t
  | t, s, op :: ops => (t.step s op).run (s.apply op) ops

/-- A new process, before `start_uci`. -/
def Track.initial : Track := ⟨true, true⟩

/-! What a read leaves. -/

section Words

variable {w u v read : List Char} {n : Nat}

theorem infix_append_of_ended (hw : '\n' ∉ w) (hu : Ended isNewline u) (h : w <:+: u ++ v) :
    w <:+: u ∨ w <:+: v := by
  rcases List.eq_nil_or_concat u with rfl | ⟨u', c, rfl⟩
  · exact .inr h
  · obtain rfl : c = '\n' := by simpa [isNewline] using hu c (by simp)
    rw [List.concat_eq_append] at h ⊢
    rw [List.append_assoc, List.singleton_append] at h
    refine (infix_or_of_infix_append_cons hw h).imp_left fun hpre => ?_
    exact hpre.trans (List.prefix_append _ _).isInfix

theorem not_infix_drop (hw : '\n' ∉ w) (hu : Ended isNewline u) (hnu : ¬ w <:+: u) (hnv : ¬ w <:+: v)
    (n : Nat) : ¬ w <:+: (u ++ v).drop n := fun h =>
  (infix_append_of_ended hw hu (h.trans (List.drop_suffix n _).isInfix)).elim hnu hnv

/-- A read that has found the word in the last part of a stream leaves nothing else. -/
theorem drop_of_found (hw : '\n' ∉ w) (hu : Ended isNewline u) (hnu : ¬ w <:+: u)
    (hread : read <+: u ++ v) (hfound : w <:+: read) :
    (u ++ v).drop read.length <:+ v.drop w.length := by
  have hlen : u.length ≤ read.length := by
    by_contra hlt
    have hpre : read <+: u :=
      List.prefix_of_prefix_length_le hread (List.prefix_append _ _) (by omega)
    exact hnu (hfound.trans hpre.isInfix)
  obtain ⟨v', rfl⟩ := List.prefix_of_prefix_length_le (List.prefix_append u v) hread hlen
  have hword : w <:+: v' := (infix_append_of_ended hw hu hfound).resolve_left hnu
  rw [List.length_append, List.drop_append, List.drop_eq_nil_of_le (Nat.le_add_right _ _),
    List.nil_append, Nat.add_sub_cancel_left]
  exact List.drop_suffix_drop_left v hword.length_le

theorem ended_drop (hu : Ended isNewline u) (n : Nat) : Ended isNewline (u.drop n) := by
  intro c hc
  rw [List.getLast?_drop] at hc
  split_ifs at hc
  exact hu c hc

/-- What is left of a text ends in the end of its last line. -/
theorem lastLine_drop {last line : List Char} (hu : Ended isNewline u)
    (hlast : ∀ c ∈ last, isNewline c = false)
    (h : lastLine ((u ++ (last ++ ['\n'])).drop n) = some line) : line <:+ last := by
  rw [List.drop_append, lastLine, getlines_append (ended_drop hu n)] at h
  by_cases hn : n - u.length ≤ last.length
  · rw [List.drop_append_of_le_length hn, getlines_line
      (fun c hc => hlast c (List.mem_of_mem_drop hc)) rfl, getlines, List.getLast?_concat] at h
    obtain rfl := Option.some.inj h
    exact List.drop_suffix _ _
  · have hnil : u.drop n = [] := List.drop_eq_nil_of_le (by omega)
    have hnil' : (last ++ ['\n']).drop (n - u.length) = [] :=
      List.drop_eq_nil_of_le (by rw [List.length_append, List.length_singleton]; omega)
    rw [hnil, hnil'] at h
    cases h

end Words

/-! The pipe between two commands. -/

/-- Nothing in the pipe can be taken for a best move or a score. -/
structure Quiet (s : Pipe) : Prop where
  bestmove : ¬ bestmoveWord <:+: chars s.unread
  unscored : ∀ line score, lastLine (chars s.unread) = some line →
    extractEvalFromRegex line ≠ .ok (some score)

section Asks

variable {s : Pipe} {r : Reply} {w : List Char} {sizes : List Nat}

theorem chars_append (t u : List (Nat × Char)) : chars (t ++ u) = chars t ++ chars u :=
  List.map_append

theorem chars_drop (n : Nat) (t : List (Nat × Char)) : chars (t.drop n) = (chars t).drop n :=
  List.map_drop

theorem chars_streamOf : chars (s.streamOf r) = chars s.unread ++ r.text := by
  rw [Pipe.streamOf, chars_append, chars_mark]

theorem chars_ask : chars (s.ask w r sizes).unread =
    (chars s.unread ++ r.text).drop (s.readOf w r sizes).length := by
  rw [Pipe.ask, chars_drop, chars_streamOf]

theorem readOf_isPrefix : s.readOf w r sizes <+: s.streamOf r := by
  have hpre : s.readOf w r sizes <+: [] ++ (piecesOf (s.streamOf r) sizes).flatten := readUntil_isPrefix
  exact hpre.trans (flatten_piecesOf_isPrefix _ _)

theorem chars_readOf_isPrefix : chars (s.readOf w r sizes) <+: chars s.unread ++ r.text := by
  rw [← chars_streamOf]
  exact readOf_isPrefix.map Prod.snd

theorem ended_chars (h : Ended (isNewline ∘ Prod.snd) s.unread) : Ended isNewline (chars s.unread) := by
  intro c hc
  rw [chars, List.getLast?_map] at hc
  obtain ⟨x, hx, rfl⟩ := Option.map_eq_some_iff.mp hc
  exact h x hx

theorem ended_append {u v : List Char} (hu : Ended isNewline u) (hv : Ended isNewline v) :
    Ended isNewline (u ++ v) := by
  intro c hc
  rcases List.eq_nil_or_concat v with rfl | ⟨v', d, rfl⟩
  · exact hu c (by simpa using hc)
  · refine hv c ?_
    rwa [List.getLast?_append_of_ne_nil _ (by simp)] at hc

theorem leftover_ask (h : Leftover s) : Leftover (s.ask w r sizes) where
  ended := by
    intro x hx
    rw [Pipe.ask, List.getLast?_drop] at hx
    split_ifs at hx
    have htext : r.text.map (Prod.mk s.calls) =
        (r.body ++ r.last).map (Prod.mk s.calls) ++ [(s.calls, '\n')] := by
      simp [Reply.text]
    rw [Pipe.streamOf, htext, ← List.append_assoc, List.getLast?_append_of_ne_nil _ (by simp)] at hx
    obtain rfl : (s.calls, '\n') = x := by simpa using hx
    rfl
  earlier := by
    intro x hx
    rcases List.mem_append.mp (List.mem_of_mem_drop hx) with hmem | hmem
    · exact Nat.lt_succ_of_lt (h.earlier x hmem)
    · obtain ⟨d, -, rfl⟩ := List.mem_map.mp hmem
      exact Nat.lt_succ_self s.calls

/-- A reply without the word leaves none, however it is read. -/
theorem not_infix_ask (h : Leftover s) {v : List Char} (hv : '\n' ∉ v) (hs : ¬ v <:+: chars s.unread)
    (hr : ¬ v <:+: r.text) : ¬ v <:+: chars (s.ask w r sizes).unread := by
  rw [chars_ask]
  exact not_infix_drop hv (ended_chars h.ended) hs hr _

theorem unscored_suffix {line last : List Char} {score : Score} (h : search scoreAt last = none)
    (hl : line <:+ last) : extractEvalFromRegex line ≠ .ok (some score) := by
  have hnone : search scoreAt line = none :=
    search_eq_none.mpr fun v hv => search_eq_none.mp h v (hv.trans hl)
  rw [extractEvalFromRegex, hnone]
  intro heq
  cases heq

/-- A reply that is neither a best move nor a score keeps the pipe quiet. -/
theorem quiet_ask (h : Leftover s) (hq : Quiet s) (hbody : ¬ bestmoveWord <:+: r.text)
    (hlast : search scoreAt r.last = none) : Quiet (s.ask w r sizes) where
  bestmove := not_infix_ask h (by decide) hq.bestmove hbody
  unscored line score hline := by
    rw [chars_ask, Reply.text, ← List.append_assoc] at hline
    exact unscored_suffix hlast
      (lastLine_drop (ended_append (ended_chars h.ended) r.ended) r.line hline)

/-- A read that has found its word leaves the rest of the last line. -/
theorem suffix_of_found (h : Leftover s) (hw : '\n' ∉ w) (hs : ¬ w <:+: chars s.unread)
    (hbody : ¬ w <:+: r.body) (hf : hasWord w (chars (s.readOf w r sizes)) = true) :
    chars (s.ask w r sizes).unread <:+ (r.last ++ ['\n']).drop w.length := by
  have hno : ¬ w <:+: chars s.unread ++ r.body := fun hin =>
    (infix_append_of_ended hw (ended_chars h.ended) hin).elim hs hbody
  have hpre : chars (s.readOf w r sizes) <+: (chars s.unread ++ r.body) ++ (r.last ++ ['\n']) := by
    have hread : chars (s.readOf w r sizes) <+: chars s.unread ++ r.text := chars_readOf_isPrefix
    rwa [Reply.text, ← List.append_assoc] at hread
  have hlen : (chars (s.readOf w r sizes)).length = (s.readOf w r sizes).length := List.length_map _
  rw [chars_ask, Reply.text, ← List.append_assoc, ← hlen]
  exact drop_of_found hw (ended_append (ended_chars h.ended) r.ended) hno hpre (of_decide_eq_true hf)

theorem quiet_of_suffix {last : List Char} (hline : ∀ c ∈ last, isNewline c = false)
    (hword : ¬ bestmoveWord <:+: last) (hscore : search scoreAt last = none)
    (h : chars s.unread <:+ last ++ ['\n']) : Quiet s := by
  obtain ⟨n, hn⟩ : ∃ n, chars s.unread = ([] ++ (last ++ ['\n'])).drop n := by
    obtain ⟨u, hu⟩ := h
    exact ⟨u.length, by rw [List.nil_append, ← hu, List.drop_left]⟩
  constructor
  · rw [hn]
    refine not_infix_drop (by decide) (by simp [Ended]) (by decide) (fun hin => ?_) n
    exact (infix_or_of_infix_append_cons (by decide) hin).elim hword (by decide)
  · intro line score hlast
    rw [hn] at hlast
    exact unscored_suffix hscore (lastLine_drop (by simp [Ended]) hline hlast)

end Asks

/-! Sessions. -/

/-- What is known of the pipe. -/
structure Known (t : Track) (s : Pipe) : Prop where
  leftover : Leftover s
  quiet : t.calm = true → Quiet s
  settled : t.settled = true → ¬ readyokWord <:+: chars s.unread

section Sessions

variable {t : Track} {s : Pipe} {op : Op} {ops : List Op} {sizes : List Nat}

theorem known_checkEngineIsready (h : Known t s) :
    Known (t.checked (s.checkEngineIsready sizes).1) (s.checkEngineIsready sizes).2 := by
  have hrest : t.settled = true → (s.checkEngineIsready sizes).1 = true →
      chars (s.checkEngineIsready sizes).2.unread <:+ [] ++ ['\n'] := fun hsettled hready =>
    suffix_of_found h.leftover (by decide) (h.settled hsettled) (by decide) hready
  refine ⟨leftover_ask h.leftover, fun hcalm => ?_, fun hsettled => ?_⟩
  · rw [Track.checked, Bool.or_eq_true, Bool.and_eq_true] at hcalm
    rcases hcalm with hcalm | ⟨hsettled, hready⟩
    · exact quiet_ask h.leftover (h.quiet hcalm) (by decide) (by decide)
    · exact quiet_of_suffix (by simp) (by decide) (by decide) (hrest hsettled hready)
  · obtain ⟨hs, hready⟩ := Bool.and_eq_true .. ▸ hsettled
    intro hin
    exact absurd (hin.trans (hrest hs hready).isInfix) (by decide)

theorem known_uci (h : Known t s) (u : UciAnswer) : Known t (s.ask uciokWord u.reply sizes) := by
  have hno {w : List Char} (hw : '\n' ∉ w) (hbody : ¬ w <:+: u.body) (hlast : ¬ w <:+: uciokWord) :
      ¬ w <:+: u.reply.text := by
    intro hin
    rcases infix_append_of_ended hw u.ended hin with hin | hin
    · exact hbody hin
    · rcases infix_or_of_infix_append_cons hw hin with hin | hin
      · exact hlast hin
      · exact hlast ((List.infix_nil.mp hin) ▸ List.nil_infix)
  have hlast : search scoreAt uciokWord = none := by decide
  exact ⟨leftover_ask h.leftover,
    fun hcalm => quiet_ask h.leftover (h.quiet hcalm) (hno (by decide) u.bestmove (by decide)) hlast,
    fun hsettled => not_infix_ask h.leftover (by decide) (h.settled hsettled)
      (hno (by decide) u.readyok (by decide))⟩

/-- A search that has been read as far as its best move leaves the rest of that line. -/
theorem known_search (h : Known t s) (c : UciCall) :
    Known { t with calm := t.calm && hasBestmove (chars (s.read c.toCall)) } (s.call c.toCall) := by
  refine ⟨leftover_call h.leftover c.toCall, fun hcalm => ?_, fun hsettled => ?_⟩
  · obtain ⟨hquiet, hfound⟩ := Bool.and_eq_true .. ▸ hcalm
    have hlen : bestmoveWord.length ≤ c.answer.bestmove.length := c.answer.bestmove_word.length_le
    have hrest : chars (s.call c.toCall).unread <:+
        (c.answer.bestmove ++ ['\n']).drop bestmoveWord.length :=
      suffix_of_found (r := c.answer.reply) h.leftover (by decide) (h.quiet hquiet).bestmove
        (not_infix_infoText c.answer) hfound
    rw [List.drop_append_of_le_length hlen] at hrest
    refine quiet_of_suffix (fun d hd => c.answer.bestmove_line d (List.mem_of_mem_drop hd)) ?_ ?_ hrest
    · intro hin
      have htail : c.answer.bestmove.drop bestmoveWord.length <:+ c.answer.bestmove.tail := by
        rw [← List.drop_one]
        exact List.drop_suffix_drop_left _ (by decide)
      exact c.once (hin.trans htail.isInfix)
    · exact search_eq_none.mpr fun v hv =>
        search_eq_none.mp c.unscored v (hv.trans (List.drop_suffix _ _))
  · exact not_infix_ask (r := c.answer.reply) h.leftover (by decide) (h.settled hsettled) c.readyok

theorem known_apply (h : Known t s) : Known (t.step s op) (s.apply op) := by
  cases op with
  | startUci u sizes readySizes =>
    simp only [Track.step, Pipe.apply, Pipe.startUci]
    split
    · exact known_uci h u
    · exact known_checkEngineIsready (known_uci h u)
  | newGame sizes => exact known_checkEngineIsready h
  | search c => exact known_search h c

theorem known_run (h : Known t s) : Known (t.run s ops) (ops.foldl Pipe.apply s) := by
  induction ops generalizing t s with
  | nil => exact h
  | cons op ops ih => exact ih (known_apply h)

theorem known_initial : Known .initial .initial where
  leftover := leftover_after []
  quiet _ := ⟨by decide, fun line score h => by cases h⟩
  settled _ := by decide

theorem ownAnswer_of_quiet (h : Quiet s) (c : Call) : OwnAnswer s c := by
  refine ⟨fun hle => ?_, fun _ _ _ => h.unscored⟩
  rintro ⟨line, info, score, hline, hmove, -⟩
  obtain ⟨b, hb⟩ := Option.ne_none_iff_exists'.mp hmove
  have hpre : s.read c <+: s.unread :=
    List.prefix_of_prefix_length_le (read_isPrefix s c) (List.prefix_append _ _) hle
  have hin : line <:+: chars (s.read c) := isInfix_of_mem_getlines (List.mem_of_getLast? hline)
  exact h.bestmove ((infix_of_extractBestmove hb).trans (hin.trans (hpre.map Prod.snd).isInfix))

end Sessions

def shortCall (sizes : List Nat) : UciCall where
  fen := []
  answer := shortAnswer
  sizes := sizes
  once := by decide
  unscored := by decide
  readyok := by decide

def shortGreeting : UciAnswer where
  body := "id name Stockfish\n".toList
  ended := by simp [Ended, isNewline]
  bestmove := by decide
  readyok := by decide

/-- The greeting is read in part, and a search is given up before the second game. -/
def gamesAfterTimeout : List Op :=
  [.startUci shortGreeting [4] [100], .newGame [5, 5], .search (shortCall [30, 10]),
    .search (shortCall [3]), .newGame [100]]

end SmakChess
