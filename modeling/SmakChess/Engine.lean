import SmakChess.Streams
import Mathlib.Data.List.Induction
import Mathlib.Algebra.Order.Ring.Nat

/-! What `ipc.cpp` makes of the text it reads from the engine. -/

namespace SmakChess

open Streams

def isNewline (c : Char) : Bool := c == '\n'

/-- The characters of `\s`. -/
def isSpace (c : Char) : Bool :=
  c == ' ' || c == '\t' || c == '\n' || c == '\x0b' || c == '\x0c' || c == '\r'

def isFile (c : Char) : Bool := 'a' ≤ c && c ≤ 'h'

def isDigit (c : Char) : Bool := '0' ≤ c && c ≤ '9'

/-- A move as the engine writes it, without a promotion letter. -/
structure UciMove where
  fromFile : Char
  fromRank : Char
  toFile : Char
  toRank : Char
  deriving DecidableEq, Repr

def takeWord (w t : List Char) : Option (List Char) :=
  if w <+: t then some (t.drop w.length) else none

/-- The expression `w\s(([a-h]\d){2})` at the start of a text, and what is left
after it. -/
def moveAfter (w t : List Char) : Option (UciMove × List Char) :=
  match takeWord w t with
  | some (s :: a :: b :: c :: d :: rest) =>
    if isSpace s && isFile a && isDigit b && isFile c && isDigit d then
      some (⟨a, b, c, d⟩, rest)
    else none
  | _ => none

def bestmoveWord : List Char := "bestmove".toList

def ponderWord : List Char := "ponder".toList

def bestmoveAt (t : List Char) : Option (UciMove × Option UciMove) :=
  (moveAfter bestmoveWord t).map fun r =>
    (r.1, (moveAfter ponderWord (r.2.dropWhile isSpace)).map Prod.fst)

def extractBestmoveFromRegex (input : List Char) : Option (UciMove × Option UciMove) :=
  search bestmoveAt input

/-- What stops `naive_eval_from_position`: it takes a line that is not there,
or a number does not fit. -/
inductive EngineFault
  | lines
  | outOfRange
  deriving DecidableEq, Repr

/-- Centipawns, or moves to mate. The sign and the digits as they stand. -/
inductive ScoreText
  | cp (negative : Bool) (digits : List Char)
  | mate (digits : List Char)
  deriving DecidableEq, Repr

def cpAt (t : List Char) : Option ScoreText :=
  (takeWord "cp".toList t).bind fun t =>
    let t := t.dropWhile isSpace
    let negative := t.head? == some '-'
    let digits := (if negative then t.tail else t).takeWhile isDigit
    if digits = [] then none else some (.cp negative digits)

def mateAt (t : List Char) : Option ScoreText :=
  (takeWord "mate".toList t).bind fun t =>
    let digits := (t.dropWhile isSpace).takeWhile isDigit
    if digits = [] then none else some (.mate digits)

def scoreAt (t : List Char) : Option ScoreText :=
  match cpAt t with
  | some s => some s
  | none => mateAt t

def numberOf (digits : List Char) : Nat :=
  digits.foldl (fun n c => 10 * n + (c.toNat - '0'.toNat)) 0

inductive Score
  | centipawns (x : Int)
  | mate (count : Nat)
  deriving DecidableEq, Repr

/-- `std::stoi` and `std::stoul`. -/
def ScoreText.value : ScoreText → Except EngineFault Score
  | .cp negative digits =>
    let x : Int := if negative then -(numberOf digits : Int) else numberOf digits
    if -2 ^ 31 ≤ x ∧ x < 2 ^ 31 then .ok (.centipawns x) else .error .outOfRange
  | .mate digits =>
    if numberOf digits < 2 ^ 64 then .ok (.mate (numberOf digits)) else .error .outOfRange

def extractEvalFromRegex (input : List Char) : Except EngineFault (Option Score) :=
  match search scoreAt input with
  | none => .ok none
  | some s => s.value.map some

/-- What the code uses of the chess library: a board from a FEN, a move made on
it, and the short name of a move. -/
structure SanLibrary where
  Board : Type
  ofFen : List Char → Board
  makeMove : Board → UciMove → Board
  moveToSan : Board → UciMove → String

/-- `Evaluation`, as far as `naive_eval_from_position` sets it. -/
structure Evaluation where
  bestmove : UciMove
  ponder : Option UciMove
  bestmoveStr : String
  ponderStr : String
  eval : Option Int
  mate : Bool
  mateCount : Nat
  deriving DecidableEq, Repr

def Evaluation.ofMoves (lib : SanLibrary) (fen : List Char) (best : UciMove)
    (ponder : Option UciMove) : Evaluation :=
  let b := lib.ofFen fen
  { bestmove := best
    ponder := ponder
    bestmoveStr := lib.moveToSan b best
    ponderStr :=
      match ponder with
      | none => ""
      | some p => lib.moveToSan (lib.makeMove b best) p
    eval := none
    mate := false
    mateCount := 0 }

def Evaluation.setScore (ev : Evaluation) : Option Score → Evaluation
  | none => ev
  | some (.centipawns x) => { ev with eval := some x }
  | some (.mate count) => { ev with mate := true, mateCount := count }

def assemble (lib : SanLibrary) (fen : List Char) (moves : Option (UciMove × Option UciMove))
    (info : Option (List Char)) : Except EngineFault (Option Evaluation) :=
  match moves with
  | none => .ok none
  | some (best, ponder) =>
    match info with
    | none => .error .lines
    | some info =>
      (extractEvalFromRegex info).map fun s =>
        some ((Evaluation.ofMoves lib fen best ponder).setScore s)

def lastLine (read : List Char) : Option (List Char) := (getlines isNewline read).getLast?

def lineBefore (read : List Char) : Option (List Char) :=
  (getlines isNewline read).dropLast.getLast?

/-- `naive_eval_from_position` after the read. -/
def naiveEval (lib : SanLibrary) (fen read : List Char) : Except EngineFault (Option Evaluation) :=
  match lastLine read with
  | none => .ok none
  | some line => assemble lib fen (extractBestmoveFromRegex line) (lineBefore read)

/-! The engine. -/

/-- Info lines, and a line that begins with the word `bestmove`. -/
structure EngineLines where
  infos : List (List Char)
  bestmove : List Char
  infos_line : ∀ l ∈ infos, ∀ c ∈ l, isNewline c = false
  bestmove_line : ∀ c ∈ bestmove, isNewline c = false
  bestmove_word : bestmoveWord <+: bestmove

/-- The answer to one `go`, whose info lines do not hold the word. -/
structure Answer extends EngineLines where
  infos_word : ∀ l ∈ infos, ¬ bestmoveWord <:+: l

def EngineLines.infoText (a : EngineLines) : List Char := a.infos.flatMap fun l => l ++ ['\n']

def EngineLines.text (a : EngineLines) : List Char := a.infoText ++ (a.bestmove ++ ['\n'])

def hasBestmove (read : List Char) : Bool := decide (bestmoveWord <:+: read)

/-! The moves in a part of a line. -/

/-- The first best move of a text, and what is after it. -/
def firstBest (t : List Char) : Option (UciMove × List Char) := search (moveAfter bestmoveWord) t

/-- The ponder that comes next, and what is after it. -/
def ponderNext (t : List Char) : Option (UciMove × List Char) :=
  moveAfter ponderWord (t.dropWhile isSpace)

def bestEnd (line : List Char) : Option Nat :=
  (firstBest line).map fun best => line.length - best.2.length

def ponderEnd (line : List Char) : Option Nat :=
  ((firstBest line).bind fun best => ponderNext best.2).map fun p => line.length - p.2.length

/-- The best move of the line lies before the place. -/
def hasBest (s : Spot Char) : Bool := (bestEnd s.line).any fun n => n ≤ s.count

def hasPonder (s : Spot Char) : Bool := (ponderEnd s.line).any fun n => n ≤ s.count

section Regex

variable {w t r : List Char} {s : Spot Char} {m q : UciMove} {b : UciMove × Option UciMove}

theorem moveAfter_eq_some : moveAfter w t = some (m, r) ↔
    ∃ s, (isSpace s && isFile m.fromFile && isDigit m.fromRank && isFile m.toFile &&
        isDigit m.toRank) = true ∧
      t = w ++ s :: m.fromFile :: m.fromRank :: m.toFile :: m.toRank :: r := by
  constructor
  · intro h
    unfold moveAfter takeWord at h
    split at h
    next s a b c d rest hw =>
      split_ifs at hw with hpre
      obtain ⟨u, rfl⟩ := hpre
      obtain rfl : u = s :: a :: b :: c :: d :: rest := by simpa using hw
      split_ifs at h with hv
      obtain ⟨rfl, rfl⟩ := by simpa using h
      exact ⟨s, hv, rfl⟩
    · cases h
  · rintro ⟨s, hv, rfl⟩
    simp [moveAfter, takeWord, hv]

theorem length_of_moveAfter (h : moveAfter w t = some (m, r)) : w.length + 5 ≤ t.length := by
  obtain ⟨s, -, rfl⟩ := moveAfter_eq_some.mp h
  simp only [List.length_append, List.length_cons]
  omega

theorem fixed_moveAfter (w : List Char) : Fixed (w.length + 5) (moveAfter w) := by
  intro v m r h
  refine ⟨length_of_moveAfter h, ?_, fun u hu => ?_⟩
  · obtain ⟨c, -, rfl⟩ := moveAfter_eq_some.mp h
    simp
  · obtain ⟨c, hv, rfl⟩ := moveAfter_eq_some.mp h
    obtain ⟨rest, rfl⟩ := hu
    exact moveAfter_eq_some.mpr ⟨c, hv, by simp [List.take_append, List.take_of_length_le]⟩

theorem extractBestmove_eq (t : List Char) : extractBestmoveFromRegex t =
    (firstBest t).map fun best => (best.1, (ponderNext best.2).map Prod.fst) :=
  search_map _ t

theorem firstBest_length (h : firstBest t = some (m, r)) : r.length ≤ t.length := by
  obtain ⟨v, hv, hm⟩ := exists_of_search h
  obtain ⟨-, rfl, -⟩ := fixed_moveAfter bestmoveWord v m r hm
  exact (List.drop_suffix _ v).length_le.trans hv.length_le

theorem ponderNext_length (h : ponderNext t = some (q, r)) : r.length ≤ t.length := by
  obtain ⟨-, rfl, -⟩ := fixed_moveAfter ponderWord _ q r h
  exact (List.drop_suffix _ _).length_le.trans (List.dropWhile_suffix _).length_le

theorem ponderNext_take_none (h : ponderNext t = none) (i : Nat) : ponderNext (t.take i) = none := by
  by_contra hne
  rw [ponderNext, dropWhile_take] at hne
  exact (fixed_moveAfter ponderWord).grows (List.take_prefix _ _) hne h

theorem ponderNext_take (h : ponderNext t = some (q, r)) (i : Nat) :
    (ponderNext (t.take i)).map Prod.fst = if t.length - r.length ≤ i then some q else none := by
  have hfixed := fixed_moveAfter ponderWord
  obtain ⟨hlen, hr, -⟩ := hfixed _ q r h
  have hsplit := congrArg List.length (List.takeWhile_append_dropWhile (p := isSpace) (l := t))
  rw [List.length_append] at hsplit
  have hdrop := congrArg List.length hr
  rw [List.length_drop] at hdrop
  have hiff : ponderWord.length + 5 ≤ i - (t.takeWhile isSpace).length ↔
      t.length - r.length ≤ i := by omega
  rw [ponderNext, dropWhile_take, hfixed.take h]
  simp only [hiff]
  split_ifs <;> rfl

theorem extractBestmove_take (s : Spot Char) :
    extractBestmoveFromRegex (s.line.take s.count) = if hasBest s = true then
      (extractBestmoveFromRegex s.line).map fun b =>
        (b.1, if hasPonder s = true then b.2 else none)
    else none := by
  have hfixed := fixed_moveAfter bestmoveWord
  rw [extractBestmove_eq, extractBestmove_eq]
  cases hf : firstBest s.line with
  | none =>
    have hnone : firstBest (s.line.take s.count) = none := hfixed.search_take_none hf _
    simp [hnone]
  | some best =>
    obtain ⟨m, r⟩ := best
    have hlen := firstBest_length hf
    have hbest : hasBest s = decide (s.line.length - r.length ≤ s.count) := by
      simp [hasBest, bestEnd, hf]
    rw [firstBest, hfixed.search_take hf, hbest]
    simp only [decide_eq_true_eq]
    by_cases hle : s.line.length - r.length ≤ s.count
    · rw [if_pos hle, if_pos hle, Option.map_some, Option.map_some, Option.map_some,
        Option.some_inj, Prod.mk.injEq]
      refine ⟨rfl, ?_⟩
      cases hp : ponderNext r with
      | none => simp [ponderNext_take_none hp]
      | some p =>
        obtain ⟨q, r'⟩ := p
        have hponder : hasPonder s = decide (s.line.length - r'.length ≤ s.count) := by
          simp [hasPonder, ponderEnd, hf, hp]
        have hlen' := ponderNext_length hp
        have hiff : r.length - r'.length ≤ s.count - (s.line.length - r.length) ↔
            s.line.length - r'.length ≤ s.count := by omega
        simp only [ponderNext_take hp, hiff, hponder, decide_eq_true_eq, Option.map_some]
    · rw [if_neg hle, if_neg hle, Option.map_none]

theorem extractBestmove_of_hasBest (h : hasBest s = true) :
    ∃ best p, extractBestmoveFromRegex s.line = some (best, p) ∧
      (hasPonder s = true → p ≠ none) := by
  rw [extractBestmove_eq]
  cases hf : firstBest s.line with
  | none => simp [hasBest, bestEnd, hf] at h
  | some best =>
    obtain ⟨m, r⟩ := best
    refine ⟨m, (ponderNext r).map Prod.fst, rfl, fun hponder => ?_⟩
    cases hp : ponderNext r with
    | none => simp [hasPonder, ponderEnd, hf, hp] at hponder
    | some p => simp

/-- A part of a text has the best move of the text, and its ponder or none. -/
theorem extractBestmove_of_take {k : Nat} {best : UciMove} {p : Option UciMove}
    (h : extractBestmoveFromRegex (t.take k) = some (best, p)) :
    ∃ q, extractBestmoveFromRegex t = some (best, q) ∧ (p = none ∨ p = q) := by
  have htake := extractBestmove_take ⟨none, t, k⟩
  simp only [h] at htake
  split_ifs at htake
  all_goals obtain ⟨⟨best', q⟩, hq, hb⟩ := Option.map_eq_some_iff.mp htake.symm
  all_goals cases hb
  · exact ⟨q, hq, .inr rfl⟩
  · exact ⟨q, hq, .inl rfl⟩

theorem infix_of_extractBestmove (h : extractBestmoveFromRegex t = some b) :
    bestmoveWord <:+: t := by
  obtain ⟨v, hv, hb⟩ := exists_of_search h
  obtain ⟨⟨m, r⟩, hm, -⟩ := Option.map_eq_some_iff.mp hb
  obtain ⟨s, -, rfl⟩ := moveAfter_eq_some.mp hm
  exact (List.prefix_append bestmoveWord _).isInfix.trans hv.isInfix

end Regex

/-! The lines of an answer that has been read as far as its last one. -/

section Answers

variable {a : Answer} {read : List Char}

def Answer.lineRead (a : Answer) (read : List Char) : List Char :=
  a.bestmove.take (read.length - a.infoText.length)

theorem not_infix_infoText (a : Answer) : ¬ bestmoveWord <:+: a.infoText := by
  have hinfos := a.infos_word
  unfold EngineLines.infoText
  generalize a.infos = infos at hinfos
  induction infos with
  | nil => decide
  | cons l ls ih =>
    intro h
    rw [List.flatMap_cons, List.append_assoc, List.singleton_append] at h
    obtain ⟨hl, hls⟩ := List.forall_mem_cons.mp hinfos
    rcases infix_or_of_infix_append_cons (by decide) h with h | h
    · exact hl h
    · exact ih hls h

theorem ended_infoText (a : Answer) : Ended isNewline a.infoText := by
  intro c hc
  unfold EngineLines.infoText at hc
  generalize a.infos = infos at hc
  induction infos using List.reverseRecOn with
  | nil => simp at hc
  | append_singleton ls l _ =>
    rw [List.flatMap_append, List.flatMap_singleton, ← List.append_assoc,
      List.getLast?_append_of_ne_nil _ (by simp)] at hc
    obtain rfl : '\n' = c := by simpa using hc
    rfl

theorem getlines_infoText (a : Answer) : getlines isNewline a.infoText = a.infos := by
  have hline := a.infos_line
  unfold EngineLines.infoText
  generalize a.infos = infos at hline
  induction infos with
  | nil => rfl
  | cons l ls ih =>
    obtain ⟨hl, hls⟩ := List.forall_mem_cons.mp hline
    rw [List.flatMap_cons, List.append_assoc, List.singleton_append, getlines_line hl rfl, ih hls]

/-- Once the word has been read, the lines are the info lines and what there is
of the last one. -/
theorem getlines_read (hpre : read <+: a.text) (hword : bestmoveWord <:+: read) :
    getlines isNewline read = a.infos ++ [a.lineRead read] := by
  have hlong : a.infoText.length < read.length := by
    by_contra hle
    have hinfo : read <+: a.infoText :=
      List.prefix_of_prefix_length_le hpre (List.prefix_append _ _) (by omega)
    exact not_infix_infoText a (hword.trans hinfo.isInfix)
  obtain ⟨v, rfl⟩ := List.prefix_of_prefix_length_le (List.prefix_append a.infoText _) hpre hlong.le
  have hv : v <+: a.bestmove ++ ['\n'] := (List.prefix_append_right_inj a.infoText).mp hpre
  have hne : v ≠ [] := by
    rintro rfl
    simp at hlong
  rw [getlines_append (ended_infoText a), getlines_infoText, Answer.lineRead, List.length_append,
    Nat.add_sub_cancel_left]
  congr 1
  by_cases hlen : v.length ≤ a.bestmove.length
  · have hshort : v <+: a.bestmove := List.prefix_of_prefix_length_le hv (List.prefix_append _ _) hlen
    rw [← List.prefix_iff_eq_take.mp hshort]
    exact getlines_unended (fun c hc => a.bestmove_line c (hshort.subset hc)) hne
  · have hall : v = a.bestmove ++ ['\n'] := by
      refine hv.eq_of_length_le ?_
      simp only [List.length_append, List.length_singleton]
      omega
    rw [hall, getlines_line a.bestmove_line rfl, List.take_of_length_le (by simp)]
    rfl

end Answers

end SmakChess
