import SmakChess.Engine

/-! `naive_eval_from_position` against the pipe, where earlier calls have left answers
unread. -/

namespace SmakChess

open Streams

/-- A board is its FEN, and a pawn move is named by its target. -/
def pawnMoves : SanLibrary where
  Board := List Char
  ofFen fen := fen
  makeMove b _ := b
  moveToSan _ m := String.ofList [m.toFile, m.toRank]

def shortAnswer : Answer where
  infos := ["info depth 1 score cp 5".toList]
  bestmove := "bestmove e2e4".toList
  infos_line := by simp [isNewline]
  infos_word := by decide
  bestmove_line := by simp [isNewline]
  bestmove_word := by decide

/-! Every character in the pipe is marked with the call whose answer it belongs to. -/

/-- One call: what the engine answers to its `go`, and the sizes of the pieces
that arrive before the read is given up. -/
structure Call where
  fen : List Char
  answer : Answer
  sizes : List Nat

structure Pipe where
  unread : List (Nat × Char)
  calls : Nat

def Pipe.initial : Pipe := ⟨[], 0⟩

def piecesOf {α : Type*} : List α → List Nat → List (List α)
  | _, [] => []
  | t, n :: ns => t.take n :: piecesOf (t.drop n) ns

def chars (t : List (Nat × Char)) : List Char := t.map Prod.snd

def Pipe.stream (s : Pipe) (c : Call) : List (Nat × Char) :=
  s.unread ++ c.answer.text.map (Prod.mk s.calls)

def Pipe.read (s : Pipe) (c : Call) : List (Nat × Char) :=
  readUntil (hasBestmove ∘ chars) [] (piecesOf (s.stream c) c.sizes)

/-- What the read leaves is not discarded. -/
def Pipe.call (s : Pipe) (c : Call) : Pipe where
  unread := (s.stream c).drop (s.read c).length
  calls := s.calls + 1

def Pipe.after (calls : List Call) : Pipe := calls.foldl Pipe.call .initial

def Pipe.result (lib : SanLibrary) (s : Pipe) (c : Call) :
    Except EngineFault (Option Evaluation) :=
  naiveEval lib c.fen (chars (s.read c))

def markedLines (t : List (Nat × Char)) : List (List (Nat × Char)) :=
  getlines (isNewline ∘ Prod.snd) t

def Evaluation.scored (ev : Evaluation) : Bool := ev.eval.isSome || ev.mate

/-- An evaluation that a call returns is taken from lines of its own answer. -/
def FromOwn (lib : SanLibrary) (s : Pipe) (c : Call) : Prop :=
  ∀ ev, s.result lib c = .ok (some ev) →
    (∀ line, (markedLines (s.read c)).getLast? = some line → ∀ x ∈ line, x.1 = s.calls) ∧
    (ev.scored = true → ∀ line, (markedLines (s.read c)).dropLast.getLast? = some line →
      ∀ x ∈ line, x.1 = s.calls)

/-- A text that ends in a best move after a readable line. -/
def Answers (read : List Char) : Prop :=
  ∃ line info s, lastLine read = some line ∧ extractBestmoveFromRegex line ≠ none ∧
    lineBefore read = some info ∧ extractEvalFromRegex info = .ok s

/-- The read gets past what earlier calls left unread, or finds no answer in
it; and when the call's own answer is a best move alone, the last line left
unread gives no score. -/
def OwnAnswer (s : Pipe) (c : Call) : Prop :=
  ((s.read c).length ≤ s.unread.length → ¬ Answers (chars (s.read c))) ∧
  (s.unread.length < (s.read c).length → c.answer.infos = [] →
    extractBestmoveFromRegex (c.answer.lineRead (chars ((s.read c).drop s.unread.length))) ≠ none →
      ∀ line score, lastLine (chars s.unread) = some line →
        extractEvalFromRegex line ≠ .ok (some score))

/-- Earlier answers are left in the pipe up to the end of a line. -/
structure Leftover (s : Pipe) : Prop where
  ended : Ended (isNewline ∘ Prod.snd) s.unread
  earlier : ∀ x ∈ s.unread, x.1 < s.calls

section Calls

variable {lib : SanLibrary} {s : Pipe} {c : Call} {ev : Evaluation} {read : List Char}
  {t : List (Nat × Char)}

theorem chars_mark (k : Nat) (v : List Char) : chars (v.map (Prod.mk k)) = v := by
  simp [chars, Function.comp_def]

theorem flatten_piecesOf_isPrefix {α : Type*} (t : List α) (sizes : List Nat) :
    (piecesOf t sizes).flatten <+: t := by
  induction sizes generalizing t with
  | nil => simp [piecesOf]
  | cons n sizes ih =>
    rw [piecesOf, List.flatten_cons]
    calc t.take n ++ (piecesOf (t.drop n) sizes).flatten
        <+: t.take n ++ t.drop n := (List.prefix_append_right_inj _).mpr (ih (t.drop n))
      _ = t := List.take_append_drop n t

theorem read_isPrefix (s : Pipe) (c : Call) : s.read c <+: s.stream c := by
  have hpre : s.read c <+: [] ++ (piecesOf (s.stream c) c.sizes).flatten := readUntil_isPrefix
  exact hpre.trans (flatten_piecesOf_isPrefix _ _)

theorem ended_stream (s : Pipe) (c : Call) :
    Ended (isNewline ∘ Prod.snd) (s.stream c) := by
  intro x hx
  have htext : c.answer.text.map (Prod.mk s.calls) =
      (c.answer.infoText ++ c.answer.bestmove).map (Prod.mk s.calls) ++ [(s.calls, '\n')] := by
    simp [EngineLines.text]
  rw [Pipe.stream, htext, ← List.append_assoc, List.getLast?_append_of_ne_nil _ (by simp)] at hx
  obtain rfl : (s.calls, '\n') = x := by simpa using hx
  rfl

theorem leftover_call (h : Leftover s) (c : Call) : Leftover (s.call c) where
  ended := by
    intro x hx
    apply ended_stream s c
    rw [Pipe.call, List.getLast?_drop] at hx
    split_ifs at hx
    exact hx
  earlier := by
    intro x hx
    have hmem := List.mem_of_mem_drop hx
    rcases List.mem_append.mp hmem with hmem | hmem
    · exact Nat.lt_succ_of_lt (h.earlier x hmem)
    · obtain ⟨d, -, rfl⟩ := List.mem_map.mp hmem
      exact Nat.lt_succ_self s.calls

theorem leftover_after (calls : List Call) : Leftover (Pipe.after calls) := by
  induction calls using List.reverseRecOn with
  | nil => exact ⟨fun x hx => by simp [Pipe.after, Pipe.initial] at hx,
      fun x hx => by simp [Pipe.after, Pipe.initial] at hx⟩
  | append_singleton calls c ih =>
    rw [Pipe.after, List.foldl_append]
    exact leftover_call ih c

theorem getLast?_markedLines (t : List (Nat × Char)) :
    ((markedLines t).getLast?).map chars = lastLine (chars t) := by
  rw [lastLine, chars, ← getlines_map, List.getLast?_map]
  rfl

theorem dropLast_markedLines (t : List (Nat × Char)) :
    ((markedLines t).dropLast.getLast?).map chars = lineBefore (chars t) := by
  rw [lineBefore, chars, ← getlines_map, ← List.map_dropLast, List.getLast?_map]
  rfl

theorem naiveEval_eq_some {fen : List Char} : naiveEval lib fen read = .ok (some ev) ↔
    ∃ line best p info sc, lastLine read = some line ∧
      extractBestmoveFromRegex line = some (best, p) ∧ lineBefore read = some info ∧
      extractEvalFromRegex info = .ok sc ∧ (Evaluation.ofMoves lib fen best p).setScore sc = ev := by
  unfold naiveEval
  cases hline : lastLine read with
  | none => simp
  | some line =>
    cases hmove : extractBestmoveFromRegex line with
    | none => simp [assemble, hmove]
    | some b =>
      obtain ⟨best, p⟩ := b
      cases hinfo : lineBefore read with
      | none => simp [assemble, hmove]
      | some info =>
        cases hs : extractEvalFromRegex info with
        | error f => simp [assemble, hmove, hs, Except.map]
        | ok sc => simp [assemble, hmove, hs, Except.map]

theorem answers_iff (lib : SanLibrary) (fen : List Char) :
    Answers read ↔ ∃ ev, naiveEval lib fen read = .ok (some ev) := by
  constructor
  · rintro ⟨line, info, sc, hline, hmove, hinfo, hs⟩
    obtain ⟨⟨best, p⟩, hb⟩ := Option.ne_none_iff_exists'.mp hmove
    exact ⟨_, naiveEval_eq_some.mpr ⟨line, best, p, info, sc, hline, hb, hinfo, hs, rfl⟩⟩
  · rintro ⟨ev, h⟩
    obtain ⟨line, best, p, info, sc, hline, hb, hinfo, hs, -⟩ := naiveEval_eq_some.mp h
    exact ⟨line, info, sc, hline, by simp [hb], hinfo, hs⟩

theorem scored_iff {fen : List Char} {best : UciMove} {p : Option UciMove} {sc : Option Score} :
    ((Evaluation.ofMoves lib fen best p).setScore sc).scored = true ↔ ∃ score, sc = some score := by
  cases sc with
  | none => simp [Evaluation.setScore, Evaluation.scored, Evaluation.ofMoves]
  | some sc => cases sc <;> simp [Evaluation.setScore, Evaluation.scored]

theorem ne_nil_of_extractEval {line : List Char} {score : Score}
    (h : extractEvalFromRegex line = .ok (some score)) : line ≠ [] := by
  rintro rfl
  have hnone : extractEvalFromRegex [] = .ok none := by decide
  rw [hnone] at h
  cases h

theorem ne_nil_of_extractBestmove {line : List Char} {b : UciMove × Option UciMove}
    (h : extractBestmoveFromRegex line = some b) : line ≠ [] := by
  rintro rfl
  have hnone : extractBestmoveFromRegex [] = none := by decide
  rw [hnone] at h
  cases h

theorem lastLine_of_markedLines {ls : List (List (Nat × Char))} {m : List (Nat × Char)}
    (h : markedLines t = ls ++ [m]) : lastLine (chars t) = some (chars m) := by
  rw [← getLast?_markedLines, h, List.getLast?_concat, Option.map_some]

theorem lineBefore_of_markedLines {ls : List (List (Nat × Char))} {m : List (Nat × Char)}
    (h : markedLines t = ls ++ [m]) : lineBefore (chars t) = ls.getLast?.map chars := by
  rw [← dropLast_markedLines, h, List.dropLast_concat]

theorem earlier_of_mem_markedLines {line : List (Nat × Char)} (h : Leftover s)
    (hline : line ∈ markedLines s.unread) : ∀ x ∈ line, x.1 < s.calls :=
  fun x hx => h.earlier x ((isInfix_of_mem_getlines hline).subset hx)

theorem not_own_of_earlier {line : List (Nat × Char)} (hearlier : ∀ x ∈ line, x.1 < s.calls)
    (hne : chars line ≠ []) : ¬ ∀ x ∈ line, x.1 = s.calls := by
  intro hown
  cases line with
  | nil => exact hne rfl
  | cons x line =>
    have hlt := hearlier x List.mem_cons_self
    have heq := hown x List.mem_cons_self
    omega

theorem fromOwn_iff_of_le (h : Leftover s) (hle : (s.read c).length ≤ s.unread.length) :
    FromOwn lib s c ↔ ¬ Answers (chars (s.read c)) := by
  have hpre : s.read c <+: s.unread :=
    List.prefix_of_prefix_length_le (read_isPrefix s c) (List.prefix_append _ _) hle
  rw [answers_iff lib c.fen]
  constructor
  · rintro hown ⟨ev, hev⟩
    obtain ⟨line, best, p, -, -, hline, hmove, -⟩ := naiveEval_eq_some.mp hev
    rw [← getLast?_markedLines] at hline
    obtain ⟨marked, hmarked, rfl⟩ := Option.map_eq_some_iff.mp hline
    refine not_own_of_earlier (fun x hx => ?_) (ne_nil_of_extractBestmove hmove)
      ((hown ev hev).1 marked hmarked)
    exact h.earlier x (hpre.subset ((isInfix_of_mem_getlines (List.mem_of_getLast? hmarked)).subset hx))
  · intro hnone ev hev
    exact absurd ⟨ev, hev⟩ hnone

theorem read_of_lt (hlt : s.unread.length < (s.read c).length) :
    ∃ v, v <+: c.answer.text ∧ v ≠ [] ∧ s.read c = s.unread ++ v.map (Prod.mk s.calls) := by
  obtain ⟨w, hw⟩ := List.prefix_of_prefix_length_le (List.prefix_append s.unread _)
    (read_isPrefix s c) hlt.le
  have hpre : w <+: c.answer.text.map (Prod.mk s.calls) := by
    have hread := read_isPrefix s c
    rw [← hw] at hread
    exact (List.prefix_append_right_inj s.unread).mp hread
  obtain ⟨v, hv, rfl⟩ := List.prefix_map_iff.mp hpre
  refine ⟨v, hv, ?_, hw.symm⟩
  rintro rfl
  rw [← hw] at hlt
  simp at hlt

/-- The lines of a read that gets to the best move of its own answer: the
earlier ones, the info lines and the best move line. -/
theorem markedLines_read {v : List Char} (h : Leftover s) (hv : v <+: c.answer.text)
    (hread : s.read c = s.unread ++ v.map (Prod.mk s.calls)) (hword : bestmoveWord <:+: v) :
    ∃ ms m, markedLines (s.read c) = markedLines s.unread ++ ms ++ [m] ∧
      ms.map chars = c.answer.infos ∧ chars m = c.answer.lineRead v ∧
      ∀ line ∈ ms ++ [m], ∀ x ∈ line, x.1 = s.calls := by
  have hmarked : markedLines (s.read c) = markedLines s.unread ++
      markedLines (v.map (Prod.mk s.calls)) := by
    rw [hread]
    exact getlines_append h.ended
  have hmap : (markedLines (v.map (Prod.mk s.calls))).map chars =
      c.answer.infos ++ [c.answer.lineRead v] := by
    rw [← getlines_read hv hword]
    conv_rhs => rw [← chars_mark s.calls v]
    exact getlines_map Prod.snd _
  obtain ⟨ms, rest, hsplit, hms, hrest⟩ := List.map_eq_append_iff.mp hmap
  obtain ⟨m, rfl, hm⟩ := List.map_eq_singleton_iff.mp hrest
  refine ⟨ms, m, by rw [hmarked, hsplit, List.append_assoc], hms, hm, fun line hline x hx => ?_⟩
  rw [← hsplit] at hline
  obtain ⟨d, -, rfl⟩ := List.mem_map.mp ((isInfix_of_mem_getlines hline).subset hx)
  rfl

/-- The word is in what a read has got of its own answer, if it ends in a best
move. -/
theorem word_of_lastLine {v line : List Char} {b : UciMove × Option UciMove} (h : Leftover s)
    (hne : v ≠ []) (hread : s.read c = s.unread ++ v.map (Prod.mk s.calls))
    (hline : lastLine (chars (s.read c)) = some line)
    (hmove : extractBestmoveFromRegex line = some b) : bestmoveWord <:+: v := by
  have hchars : chars (s.read c) = chars s.unread ++ v := by
    rw [hread, chars, List.map_append, ← chars, ← chars, chars_mark]
  have hended : Ended isNewline (chars s.unread) := by
    intro d hd
    rw [chars, List.getLast?_map] at hd
    obtain ⟨x, hx, rfl⟩ := Option.map_eq_some_iff.mp hd
    exact h.ended x hx
  rw [lastLine, hchars, getlines_append hended,
    List.getLast?_append_of_ne_nil _ (getlines_ne_nil hne)] at hline
  exact (infix_of_extractBestmove hmove).trans
    (isInfix_of_mem_getlines (List.mem_of_getLast? hline))

theorem lineRead_isInfix {v : List Char} (hinfos : c.answer.infos = [])
    (hv : v <+: c.answer.text) : c.answer.lineRead v <:+: v := by
  have htext : c.answer.text = c.answer.bestmove ++ ['\n'] := by
    simp [EngineLines.text, EngineLines.infoText, hinfos]
  have htake : c.answer.lineRead v = c.answer.bestmove.take v.length := by
    simp [Answer.lineRead, EngineLines.infoText, hinfos]
  rw [htake]
  rw [htext] at hv
  refine (List.prefix_of_prefix_length_le ?_ hv (List.length_take_le _ _)).isInfix
  exact (List.take_prefix _ _).trans (List.prefix_append _ _)

/-- Without info lines of its own the call takes its score from the line before. -/
theorem not_score_of_fromOwn {v line : List Char} {score : Score} (h : Leftover s)
    (hv : v <+: c.answer.text) (hread : s.read c = s.unread ++ v.map (Prod.mk s.calls))
    (hinfos : c.answer.infos = [])
    (hmove : extractBestmoveFromRegex (c.answer.lineRead v) ≠ none)
    (hline : lastLine (chars s.unread) = some line) (hfrom : FromOwn lib s c) :
    extractEvalFromRegex line ≠ .ok (some score) := by
  intro hscore
  obtain ⟨⟨best, p⟩, hb⟩ := Option.ne_none_iff_exists'.mp hmove
  have hword := (infix_of_extractBestmove hb).trans (lineRead_isInfix hinfos hv)
  obtain ⟨ms, m, hlines, hms, hm, -⟩ := markedLines_read h hv hread hword
  obtain rfl : ms = [] := List.map_eq_nil_iff.mp (hms.trans hinfos)
  rw [List.append_nil] at hlines
  have hlast : lastLine (chars (s.read c)) = some (c.answer.lineRead v) :=
    hm ▸ lastLine_of_markedLines hlines
  have hbefore : lineBefore (chars (s.read c)) = some line := by
    rw [lineBefore_of_markedLines hlines, getLast?_markedLines, hline]
  have hev : s.result lib c = .ok (some ((Evaluation.ofMoves lib c.fen best p).setScore score)) :=
    naiveEval_eq_some.mpr ⟨_, best, p, line, some score, hlast, hb, hbefore, hscore, rfl⟩
  rw [← getLast?_markedLines] at hline
  obtain ⟨marked, hmarked, rfl⟩ := Option.map_eq_some_iff.mp hline
  have hearlier := earlier_of_mem_markedLines h (List.mem_of_getLast? hmarked)
  refine not_own_of_earlier hearlier (ne_nil_of_extractEval hscore)
    ((hfrom _ hev).2 (scored_iff.mpr ⟨score, rfl⟩) marked ?_)
  rw [hlines, List.dropLast_concat, hmarked]

theorem fromOwn_of_not_score {v : List Char} (h : Leftover s) (hne : v ≠ [])
    (hv : v <+: c.answer.text) (hread : s.read c = s.unread ++ v.map (Prod.mk s.calls))
    (hcond : c.answer.infos = [] → extractBestmoveFromRegex (c.answer.lineRead v) ≠ none →
      ∀ line score, lastLine (chars s.unread) = some line →
        extractEvalFromRegex line ≠ .ok (some score)) : FromOwn lib s c := by
  intro ev hev
  obtain ⟨line, best, p, info, sc, hline, hb, hinfo, hs, rfl⟩ := naiveEval_eq_some.mp hev
  have hword := word_of_lastLine h hne hread hline hb
  obtain ⟨ms, m, hlines, hms, hm, hown⟩ := markedLines_read h hv hread hword
  refine ⟨fun marked hmarked => ?_, fun hscored marked hmarked => ?_⟩
  · rw [hlines, List.getLast?_concat] at hmarked
    obtain rfl := Option.some.inj hmarked
    exact hown m (by simp)
  · rw [hlines, List.dropLast_concat] at hmarked
    by_cases hnil : ms = []
    · obtain ⟨score, rfl⟩ := scored_iff.mp hscored
      subst hnil
      rw [List.append_nil] at hlines hmarked
      have hlast : line = c.answer.lineRead v := by
        rw [lastLine_of_markedLines hlines, hm] at hline
        exact (Option.some.inj hline).symm
      have hbefore : lastLine (chars s.unread) = some info := by
        rw [lineBefore_of_markedLines hlines, getLast?_markedLines] at hinfo
        exact hinfo
      exact absurd hs (hcond hms.symm (by simp [← hlast, hb]) info score hbefore)
    · rw [List.getLast?_append_of_ne_nil _ hnil] at hmarked
      exact hown marked (List.mem_append_left _ (List.mem_of_getLast? hmarked))

theorem fromOwn_iff_of_lt (h : Leftover s) (hlt : s.unread.length < (s.read c).length) :
    FromOwn lib s c ↔ (c.answer.infos = [] →
      extractBestmoveFromRegex (c.answer.lineRead (chars ((s.read c).drop s.unread.length))) ≠ none →
        ∀ line score, lastLine (chars s.unread) = some line →
          extractEvalFromRegex line ≠ .ok (some score)) := by
  obtain ⟨v, hv, hne, hread⟩ := read_of_lt hlt
  have hdrop : chars ((s.read c).drop s.unread.length) = v := by
    rw [hread, List.drop_left, chars_mark]
  rw [hdrop]
  constructor
  · intro hfrom hinfos hmove line score hline
    exact not_score_of_fromOwn h hv hread hinfos hmove hline hfrom
  · exact fromOwn_of_not_score h hne hv hread

theorem fromOwn_iff (h : Leftover s) : FromOwn lib s c ↔ OwnAnswer s c := by
  unfold OwnAnswer
  by_cases hle : (s.read c).length ≤ s.unread.length
  · rw [fromOwn_iff_of_le h hle]
    exact ⟨fun hn => ⟨fun _ => hn, fun hlt => absurd hle (Nat.not_le_of_lt hlt)⟩, fun hc => hc.1 hle⟩
  · have hlt := Nat.lt_of_not_le hle
    rw [fromOwn_iff_of_lt h hlt]
    exact ⟨fun hn => ⟨fun hle' => absurd hle' hle, fun _ => hn⟩, fun hc => hc.2 hlt⟩

end Calls

/-- The first read is given up before anything arrives, the second gets the
first answer. -/
def timedOut : Call := ⟨[], shortAnswer, []⟩

def shifted : Call := ⟨[], shortAnswer, [shortAnswer.text.length]⟩

end SmakChess
