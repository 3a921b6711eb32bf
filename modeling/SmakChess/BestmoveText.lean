import SmakChess.Engine
import Mathlib.Data.List.TakeWhile

/-! `extractBestmoveFromRegex` on the lines that UCI allows. -/

namespace SmakChess

open Streams

def isRank (c : Char) : Bool := '1' ≤ c && c ≤ '8'

def UciMove.text (m : UciMove) : List Char := [m.fromFile, m.fromRank, m.toFile, m.toRank]

def UciMove.OnBoard (m : UciMove) : Prop :=
  isFile m.fromFile = true ∧ isRank m.fromRank = true ∧ isFile m.toFile = true ∧
    isRank m.toRank = true

instance (m : UciMove) : Decidable m.OnBoard := inferInstanceAs (Decidable (_ ∧ _ ∧ _ ∧ _))

/-- White space between two words. -/
structure Gap where
  chars : List Char
  ne_nil : chars ≠ []
  space : ∀ c ∈ chars, isSpace c = true

/-- A move and the letter of a promotion. -/
structure UciWord where
  move : UciMove
  promotion : Option Char
  onBoard : move.OnBoard
  letter : ∀ c, promotion = some c → c ∈ ['q', 'r', 'b', 'n']

def UciWord.text (w : UciWord) : List Char := w.move.text ++ w.promotion.toList

structure PonderPart where
  before : Gap
  after : Gap
  word : UciWord

def PonderPart.text (p : PonderPart) : List Char :=
  p.before.chars ++ (ponderWord ++ (p.after.chars ++ p.word.text))

structure BestmoveLine where
  gap : Gap
  best : UciWord
  ponder : Option PonderPart
  tail : List Char
  space : ∀ c ∈ tail, isSpace c = true

namespace BestmoveLine

def ponderText (line : BestmoveLine) : List Char := (line.ponder.map PonderPart.text).getD []

def rest (line : BestmoveLine) : List Char :=
  line.gap.chars ++ (line.best.text ++ (line.ponderText ++ line.tail))

def text (line : BestmoveLine) : List Char := bestmoveWord ++ line.rest

end BestmoveLine

/-- A value without a promotion denotes a move without one. -/
def UciMove.Denotes (m : UciMove) (w : UciWord) : Prop := m = w.move ∧ w.promotion = none

def BestmoveLine.ReadAs (line : BestmoveLine) (r : Option (UciMove × Option UciMove)) : Prop :=
  ∃ m p, r = some (m, p) ∧ m.Denotes line.best ∧
    match p, line.ponder with
    | none, none => True
    | some p, some part => p.Denotes part.word
    | _, _ => False

def HasUciBestmove (t : List Char) : Prop :=
  ∃ (g : Gap) (m : UciMove), m.OnBoard ∧ bestmoveWord ++ (g.chars ++ m.text) <:+: t

def ReadsBestmove (t : List Char) : Prop :=
  (∀ line : BestmoveLine, line.text = t → line.ReadAs (extractBestmoveFromRegex t)) ∧
    (¬ HasUciBestmove t → extractBestmoveFromRegex t = none)

/-- The line has no promotion, and one character of white space before a move. -/
def BestmoveLine.Plain (line : BestmoveLine) : Prop :=
  (line.gap.chars.length = 1 ∧ line.best.promotion = none) ∧
    ∀ part, line.ponder = some part →
      part.after.chars.length = 1 ∧ part.word.promotion = none

/-- Two files with digits after the word, and one of the digits is no rank. -/
def HasOffBoard (t : List Char) : Prop :=
  ∃ s, isSpace s = true ∧ ∃ m : UciMove, ¬ m.OnBoard ∧
    (isFile m.fromFile && isDigit m.fromRank && isFile m.toFile && isDigit m.toRank) = true ∧
    bestmoveWord ++ s :: m.text <:+: t

section Regex

variable {w t r : List Char} {line : BestmoveLine} {m : UciMove} {part : PonderPart}

theorem isDigit_of_isRank {c : Char} (h : isRank c = true) : isDigit c = true := by
  simp only [isRank, isDigit, Bool.and_eq_true, decide_eq_true_eq] at h ⊢
  exact ⟨Char.le_trans (show '0' ≤ '1' by decide) h.1, Char.le_trans h.2 (show '8' ≤ '9' by decide)⟩

theorem not_isFile_or_isDigit_of_isSpace {c : Char} (h : isSpace c = true) :
    isFile c = false ∧ isDigit c = false := by
  simp only [isSpace, Bool.or_eq_true, beq_iff_eq] at h
  rcases h with ((((rfl | rfl) | rfl) | rfl) | rfl) | rfl <;> decide

/-- A word of the expression is matched, when one white space character is
between it and a move. -/
theorem moveAfter_gap (g : Gap) (v : UciWord) :
    moveAfter w (w ++ (g.chars ++ (v.text ++ r))) =
      if g.chars.length = 1 then some (v.move, v.promotion.toList ++ r) else none := by
  obtain ⟨hff, hfr, htf, htr⟩ := v.onBoard
  obtain ⟨c, cs, hcs⟩ := List.exists_cons_of_ne_nil g.ne_nil
  have hc : isSpace c = true := g.space c (by simp [hcs])
  cases cs with
  | nil =>
    rw [if_pos (by simp [hcs])]
    refine moveAfter_eq_some.mpr ⟨c, ?_, by simp [hcs, UciWord.text, UciMove.text]⟩
    simp [hc, hff, htf, isDigit_of_isRank hfr, isDigit_of_isRank htr]
  | cons d cs =>
    have hd := (not_isFile_or_isDigit_of_isSpace (g.space d (by simp [hcs]))).1
    rw [if_neg (by simp [hcs]), Option.eq_none_iff_forall_ne_some]
    rintro ⟨m, r'⟩ h
    obtain ⟨s, hs, heq⟩ := moveAfter_eq_some.mp h
    rw [List.append_cancel_left_eq, hcs] at heq
    obtain ⟨-, rfl, -⟩ : c = s ∧ d = m.fromFile ∧ True := by
      simp only [List.cons_append, List.cons.injEq] at heq
      exact ⟨heq.1, heq.2.1, trivial⟩
    simp [hd] at hs

theorem not_mem_gap (g : Gap) : 'm' ∉ g.chars := fun h => by cases g.space _ h

theorem mem_word {v : UciWord} {c : Char} (h : c ∈ v.text) :
    isFile c = true ∨ isRank c = true ∨ c ∈ ['q', 'r', 'b', 'n'] := by
  obtain ⟨hff, hfr, htf, htr⟩ := v.onBoard
  simp only [UciWord.text, UciMove.text, List.mem_append, List.mem_cons, List.not_mem_nil, or_false,
    Option.mem_toList] at h
  rcases h with (rfl | rfl | rfl | rfl) | h
  · exact .inl hff
  · exact .inr (.inl hfr)
  · exact .inl htf
  · exact .inr (.inl htr)
  · exact .inr (.inr (v.letter _ h))

theorem not_mem_word (v : UciWord) : 'm' ∉ v.text := fun h => absurd (mem_word h) (by decide)

theorem not_mem_rest (line : BestmoveLine) : 'm' ∉ line.rest := by
  have htail : 'm' ∉ line.tail := fun h => by cases line.space _ h
  have hponder : 'm' ∉ line.ponderText := by
    unfold BestmoveLine.ponderText
    cases line.ponder with
    | none => simp
    | some part =>
      have hword : 'm' ∉ ponderWord := by decide
      simp [PonderPart.text, not_mem_gap, not_mem_word, hword]
  simp [BestmoveLine.rest, not_mem_gap, not_mem_word, hponder, htail]

theorem isPrefix_of_bestmoveAt {b : UciMove × Option UciMove} (h : bestmoveAt t = some b) :
    bestmoveWord <+: t := by
  obtain ⟨⟨m, r⟩, hm, -⟩ := Option.map_eq_some_iff.mp h
  obtain ⟨s, -, rfl⟩ := moveAfter_eq_some.mp hm
  exact List.prefix_append _ _

/-- The word is nowhere else in the line. -/
theorem extract_text (line : BestmoveLine) :
    extractBestmoveFromRegex line.text = bestmoveAt line.text := by
  cases hb : bestmoveAt line.text with
  | some b => exact search_of_match hb
  | none =>
    have hrest : extractBestmoveFromRegex line.rest = none := by
      by_contra hne
      obtain ⟨b, hb⟩ := Option.ne_none_iff_exists'.mp hne
      exact not_mem_rest line ((infix_of_extractBestmove hb).subset (by decide))
    have hmiddle : search bestmoveAt ("estmove".toList ++ line.rest) = search bestmoveAt line.rest := by
      refine search_append fun v hv hne => ?_
      rw [Option.eq_none_iff_forall_ne_some]
      intro b hb
      obtain ⟨c, v, rfl⟩ := List.exists_cons_of_ne_nil hne
      obtain ⟨rfl, -⟩ := List.cons_prefix_cons.mp (isPrefix_of_bestmoveAt hb)
      exact absurd (hv.subset List.mem_cons_self) (by decide)
    have htext : line.text = 'b' :: ("estmove".toList ++ line.rest) := rfl
    rw [extractBestmoveFromRegex, htext, search, ← htext, hb, hmiddle]
    exact hrest

theorem bestmoveAt_text (line : BestmoveLine) : bestmoveAt line.text =
    if line.gap.chars.length = 1 then
      some (line.best.move, (moveAfter ponderWord
        ((line.best.promotion.toList ++ (line.ponderText ++ line.tail)).dropWhile isSpace)).map
          Prod.fst)
    else none := by
  rw [bestmoveAt, BestmoveLine.text, BestmoveLine.rest, moveAfter_gap]
  split_ifs <;> rfl

theorem moveAfter_ponderText (h : line.ponder = some part) :
    moveAfter ponderWord ((line.ponderText ++ line.tail).dropWhile isSpace) =
      if part.after.chars.length = 1 then
        some (part.word.move, part.word.promotion.toList ++ line.tail)
      else none := by
  have hdrop : (line.ponderText ++ line.tail).dropWhile isSpace =
      ponderWord ++ (part.after.chars ++ (part.word.text ++ line.tail)) := by
    have htext : line.ponderText ++ line.tail =
        part.before.chars ++ (ponderWord ++ (part.after.chars ++ (part.word.text ++ line.tail))) := by
      simp [BestmoveLine.ponderText, h, PonderPart.text]
    rw [htext, List.dropWhile_append_of_pos part.before.space]
    rfl
  rw [hdrop, moveAfter_gap]

theorem moveAfter_tail (h : line.ponder = none) :
    moveAfter ponderWord ((line.ponderText ++ line.tail).dropWhile isSpace) = none := by
  have hdrop : (line.ponderText ++ line.tail).dropWhile isSpace = [] := by
    simpa [BestmoveLine.ponderText, h] using List.dropWhile_eq_nil_iff.mpr line.space
  rw [hdrop]
  rfl

theorem readAs_iff_plain (line : BestmoveLine) :
    line.ReadAs (extractBestmoveFromRegex line.text) ↔ line.Plain := by
  rw [extract_text, bestmoveAt_text]
  by_cases hgap : line.gap.chars.length = 1
  · by_cases hpromotion : line.best.promotion = none
    · cases hp : line.ponder with
      | none =>
        have hnone := moveAfter_tail hp
        simp [BestmoveLine.ReadAs, BestmoveLine.Plain, UciMove.Denotes, hgap, hpromotion, hp, hnone]
      | some part =>
        have hpart := moveAfter_ponderText hp
        by_cases hafter : part.after.chars.length = 1
        · simp [BestmoveLine.ReadAs, BestmoveLine.Plain, UciMove.Denotes, hgap, hpromotion, hp,
            hpart, hafter]
        · simp [BestmoveLine.ReadAs, BestmoveLine.Plain, UciMove.Denotes, hgap, hpromotion, hp,
            hpart, hafter]
    · refine iff_of_false ?_ fun h => hpromotion h.1.2
      rintro ⟨m, p, -, ⟨-, hnone⟩, -⟩
      exact hpromotion hnone
  · rw [if_neg hgap]
    refine iff_of_false ?_ fun h => hgap h.1.1
    rintro ⟨m, p, h, -⟩
    cases h

theorem extract_eq_none_iff (h : ¬ HasUciBestmove t) :
    extractBestmoveFromRegex t = none ↔ ¬ HasOffBoard t := by
  constructor
  · rintro hnone ⟨s, hs, m, -, hv, hinfix⟩
    obtain ⟨v, ⟨r, rfl⟩, hsuffix⟩ := List.infix_iff_prefix_suffix.mp hinfix
    have hat := search_eq_none.mp hnone _ hsuffix
    have hmove : moveAfter bestmoveWord (bestmoveWord ++ s :: m.text ++ r) = some (m, r) :=
      moveAfter_eq_some.mpr ⟨s, by simpa [hs] using hv, by simp [UciMove.text]⟩
    rw [bestmoveAt, hmove] at hat
    cases hat
  · intro hoff
    by_contra hne
    obtain ⟨b, hb⟩ := Option.ne_none_iff_exists'.mp hne
    obtain ⟨v, hsuffix, hat⟩ := exists_of_search hb
    obtain ⟨⟨m, r⟩, hm, -⟩ := Option.map_eq_some_iff.mp hat
    obtain ⟨s, hv, rfl⟩ := moveAfter_eq_some.mp hm
    have hinfix : bestmoveWord ++ s :: m.text <:+: t :=
      List.infix_iff_prefix_suffix.mpr ⟨_, ⟨r, by simp [UciMove.text]⟩, hsuffix⟩
    simp only [Bool.and_eq_true] at hv
    obtain ⟨⟨⟨⟨hs, hff⟩, hfr⟩, htf⟩, htr⟩ := hv
    by_cases hon : m.OnBoard
    · exact h ⟨⟨[s], by simp, by simpa using hs⟩, m, hon, hinfix⟩
    · exact hoff ⟨s, hs, m, hon, by simp [hff, hfr, htf, htr], hinfix⟩

end Regex

/-- The line is read as it says, exactly when it has no promotion, one character
of white space before each move, and no squares outside the board where there is
no move. -/
theorem readsBestmove_iff_plain (t : List Char) : ReadsBestmove t ↔
    (∀ line : BestmoveLine, line.text = t → line.Plain) ∧
      (¬ HasUciBestmove t → ¬ HasOffBoard t) := by
  refine and_congr (forall_congr' fun line => forall_congr' fun h => ?_)
    (forall_congr' extract_eq_none_iff)
  subst h
  exact readAs_iff_plain line

def space : Gap := ⟨[' '], by simp, by simp [isSpace]⟩

/-- `bestmove e7e8q ponder a7a8`, of which only the squares e7 and e8 are read. -/
def promotionLine : BestmoveLine where
  gap := space
  best := ⟨⟨'e', '7', 'e', '8'⟩, some 'q', by decide, by simp⟩
  ponder := some ⟨space, space, ⟨⟨'a', '7', 'a', '8'⟩, none, by decide, nofun⟩⟩
  tail := []
  space := by simp

theorem promotionLine_not_readsBestmove : ¬ ReadsBestmove promotionLine.text := by
  intro h
  have hplain := (readAs_iff_plain promotionLine).mp (h.1 promotionLine rfl)
  cases hplain.1.2

end SmakChess
