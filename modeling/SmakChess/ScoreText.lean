import SmakChess.BestmoveText
import SmakChess.Centipawns

/-! `extractEvalFromRegex` on the info lines of UCI. -/

namespace SmakChess

open Streams

def fieldNames : List (List Char) :=
  ["info", "depth", "seldepth", "time", "nodes", "pv", "multipv", "score", "lowerbound",
    "upperbound", "currmove", "currmovenumber", "hashfull", "nps", "tbhits", "sbhits", "cpuload",
    "refutation", "currline", "wdl"].map String.toList

/-- A word that may stand before the score. -/
inductive InfoWord : List Char → Prop
  | name {w : List Char} (h : w ∈ fieldNames) : InfoWord w
  | number {w : List Char} (h : ∀ c ∈ w, isDigit c = true) : InfoWord w
  | move (m : UciWord) : InfoWord m.text

def intText (x : Int) : List Char := (if x < 0 then ['-'] else []) ++ Nat.toDigits 10 x.natAbs

inductive EngineScore
  | cp (x : Int)
  | mate (y : Int)
  deriving DecidableEq, Repr

namespace EngineScore

def number : EngineScore → Int
  | .cp x => x
  | .mate y => y

def unit : EngineScore → List Char
  | .cp _ => "cp".toList
  | .mate _ => "mate".toList

def isMate : EngineScore → Bool
  | .cp _ => false
  | .mate _ => true

end EngineScore

/-- An info line with a score. After the number there may be any text. -/
structure InfoLine where
  before : List (List Char)
  score : EngineScore
  after : List Char
  words : ∀ w ∈ before, InfoWord w
  fits : score.number.natAbs < 2 ^ 31
  ended : ∀ c, after.head? = some c → isDigit c = false

def wordsText (ws : List (List Char)) : List Char := ws.flatMap fun w => w ++ [' ']

namespace InfoLine

def scoreText (line : InfoLine) : List Char :=
  line.score.unit ++ (' ' :: (intText line.score.number ++ line.after))

def text (line : InfoLine) : List Char :=
  wordsText (line.before ++ ["score".toList]) ++ line.scoreText

end InfoLine

def EngineScore.Is (s : EngineScore) (r : Score) : Prop :=
  match s with
  | .cp x => r.pawns = some ((x : ℚ) / 100)
  | .mate y => r = .mate y.natAbs

/-- The score is extracted with its exact value, and the evaluation has the mark of a mate exactly
when the engine has reported one. -/
def ReadsScore (line : InfoLine) : Prop :=
  (∃ r, extractEvalFromRegex line.text = .ok (some r) ∧ line.score.Is r) ∧
    ∀ (lib : SanLibrary) fen best ponder, ∃ ev,
      assemble lib fen (some (best, ponder)) (some line.text) = .ok (some ev) ∧
        ev.mate = line.score.isMate

/-- The first score in a text is a mate in `n`. -/
def FirstIsMate (t : List Char) (n : Nat) : Prop :=
  ∃ digits, FirstMatch scoreAt t (.mate digits) ∧ numberOf digits = n

section Digits

variable {t : List Char} {c : Char} {n : Nat}

theorem isDigit_eq (c : Char) : isDigit c = c.isDigit := by
  simp only [isDigit, Char.isDigit, Char.le_def]

theorem isDigit_of_mem_toDigits (h : c ∈ Nat.toDigits 10 n) : isDigit c = true := by
  rw [isDigit_eq]
  exact Nat.isDigit_of_mem_toDigits (by decide) (by decide) h

theorem takeWhile_toDigits (h : ∀ c, t.head? = some c → isDigit c = false) :
    (Nat.toDigits 10 n ++ t).takeWhile isDigit = Nat.toDigits 10 n := by
  rw [List.takeWhile_append_of_pos fun c hc => isDigit_of_mem_toDigits hc]
  cases t with
  | nil => simp
  | cons c t => simp [h c rfl]

theorem numberOf_toDigits (n : Nat) : numberOf (Nat.toDigits 10 n) = n :=
  Nat.ofDigitChars_ten_toDigits

theorem exists_toDigits_eq_cons (n : Nat) :
    ∃ c cs, Nat.toDigits 10 n = c :: cs ∧ isDigit c = true := by
  obtain ⟨c, cs, h⟩ := List.exists_cons_of_ne_nil (Nat.toDigits_ne_nil (b := 10) (n := n))
  exact ⟨c, cs, h, isDigit_of_mem_toDigits (n := n) (by simp [h])⟩

end Digits

/-! No score begins in the words before it. -/

/-- What may follow the letters of a score. -/
def opensNumber (c : Char) : Bool := isSpace c || c == '-' || isDigit c

/-- Nowhere in the word are there the letters of a score, unless a letter that
no number begins with comes after them. -/
def Harmless (w : List Char) : Prop :=
  ∀ v ∈ w.tails, ¬ "mate".toList <+: v ∧
    ("cp".toList <+: v → (v.drop 2).head?.any (fun c => !opensNumber c) = true)

instance (w : List Char) : Decidable (Harmless w) :=
  inferInstanceAs (Decidable (∀ v ∈ w.tails, _))

section Words

variable {t v w : List Char} {c : Char}

theorem scoreAt_of_not_prefix (hcp : ¬ "cp".toList <+: t) (hmate : ¬ "mate".toList <+: t) :
    scoreAt t = none := by
  have hcp' : cpAt t = none := by rw [cpAt, takeWord, if_neg hcp, Option.bind_none]
  have hmate' : mateAt t = none := by rw [mateAt, takeWord, if_neg hmate, Option.bind_none]
  rw [scoreAt, hcp', hmate']

theorem scoreAt_of_head (h₁ : c ≠ 'c') (h₂ : c ≠ 'm') : scoreAt (c :: t) = none :=
  scoreAt_of_not_prefix (fun h => h₁ (List.cons_prefix_cons.mp h).1.symm)
    fun h => h₂ (List.cons_prefix_cons.mp h).1.symm

theorem cpAt_of_not_opens (h : opensNumber c = false) : cpAt ('c' :: 'p' :: c :: t) = none := by
  simp only [opensNumber, Bool.or_eq_false_iff, beq_eq_false_iff_ne] at h
  obtain ⟨⟨hs, hminus⟩, hd⟩ := h
  simp [cpAt, takeWord, hs, hminus, hd]

theorem scoreAt_of_harmless (hw : Harmless w) (hv : v <:+ w) (t : List Char) :
    scoreAt (v ++ ' ' :: t) = none := by
  obtain ⟨hmate, hcp⟩ := hw v ((List.mem_tails _ _).mpr hv)
  have hmate' : ¬ "mate".toList <+: v ++ ' ' :: t :=
    fun h => hmate (isPrefix_of_isPrefix_append_cons (by decide) h)
  by_cases hpre : "cp".toList <+: v
  · have hopens := hcp hpre
    obtain ⟨u, rfl⟩ := hpre
    cases u with
    | nil => simp at hopens
    | cons c u =>
      have hopens : opensNumber c = false := by simpa using hopens
      have hnone : cpAt ("cp".toList ++ c :: u ++ ' ' :: t) = none := cpAt_of_not_opens hopens
      rw [scoreAt, hnone]
      rfl
  · exact scoreAt_of_not_prefix
      (fun h => hpre (isPrefix_of_isPrefix_append_cons (by decide) h)) hmate'

theorem harmless_of_not_mem (hm : 'm' ∉ w) (hp : 'c' ∉ w ∨ 'p' ∉ w) : Harmless w := by
  intro v hv
  have hsub := ((List.mem_tails _ _).mp hv).subset
  refine ⟨fun h => hm (hsub (h.subset (by decide))), fun h => ?_⟩
  rcases hp with hp | hp <;> exact absurd (hsub (h.subset (by decide))) hp

theorem harmless_of_infoWord (h : InfoWord w) : Harmless w := by
  cases h with
  | name h =>
    have hnames : ∀ w ∈ fieldNames, Harmless w := by decide +kernel
    exact hnames w h
  | number h =>
    exact harmless_of_not_mem (fun hm => by cases h _ hm) (.inl fun hc => by cases h _ hc)
  | move m =>
    exact harmless_of_not_mem (not_mem_word m) (.inr fun h => absurd (mem_word h) (by decide))

theorem search_wordsText {ws : List (List Char)} (h : ∀ w ∈ ws, Harmless w) (t : List Char) :
    search scoreAt (wordsText ws ++ t) = search scoreAt t := by
  induction ws with
  | nil => rfl
  | cons w ws ih =>
    obtain ⟨hw, hws⟩ := List.forall_mem_cons.mp h
    have htext : wordsText (w :: ws) ++ t = (w ++ [' ']) ++ (wordsText ws ++ t) := by
      simp [wordsText]
    rw [htext, search_append, ih hws]
    intro v hv hne
    rcases List.suffix_concat_iff.mp hv with rfl | ⟨u, rfl, hu⟩
    · exact absurd rfl hne
    · rw [List.append_assoc]
      exact scoreAt_of_harmless hw hu _

end Words

/-! The score. -/

section Score

variable {t : List Char} {x y : Int} {line : InfoLine}

theorem takeWord_append (w t : List Char) : takeWord w (w ++ t) = some t := by
  simp [takeWord]

theorem dropWhile_digits (n : Nat) (t : List Char) :
    (' ' :: (Nat.toDigits 10 n ++ t)).dropWhile isSpace = Nat.toDigits 10 n ++ t := by
  obtain ⟨c, cs, hcs, hc⟩ := exists_toDigits_eq_cons n
  have hspace : isSpace c = false := by
    rw [← Bool.not_eq_true]
    intro h
    rw [(not_isFile_or_isDigit_of_isSpace h).2] at hc
    cases hc
  rw [hcs]
  simp [hspace, show isSpace ' ' = true by decide]

theorem scoreAt_cp (x : Int) (ht : ∀ c, t.head? = some c → isDigit c = false) :
    scoreAt ("cp".toList ++ ' ' :: (intText x ++ t)) =
      some (.cp (decide (x < 0)) (Nat.toDigits 10 x.natAbs)) := by
  have hne : Nat.toDigits 10 x.natAbs ≠ [] := Nat.toDigits_ne_nil
  suffices hcp : cpAt ("cp".toList ++ ' ' :: (intText x ++ t)) =
      some (.cp (decide (x < 0)) (Nat.toDigits 10 x.natAbs)) by
    rw [scoreAt, hcp]
  rw [cpAt, takeWord_append, Option.bind_some]
  by_cases hx : x < 0
  · have hdrop : (' ' :: (intText x ++ t)).dropWhile isSpace =
        '-' :: (Nat.toDigits 10 x.natAbs ++ t) := by
      rw [intText, if_pos hx]
      rfl
    simp only [hdrop, hx]
    simp [takeWhile_toDigits ht, hne]
  · obtain ⟨c, cs, hcs, hc⟩ := exists_toDigits_eq_cons x.natAbs
    have hminus : ¬ c = '-' := by
      rintro rfl
      cases hc
    have hdrop : (' ' :: (intText x ++ t)).dropWhile isSpace = Nat.toDigits 10 x.natAbs ++ t := by
      rw [intText, if_neg hx]
      exact dropWhile_digits _ _
    have hhead : (Nat.toDigits 10 x.natAbs ++ t).head? = some c := by simp [hcs]
    simp only [hdrop, hhead, hx]
    simp [takeWhile_toDigits ht, hne, hminus]

theorem scoreAt_mate (hy : 0 ≤ y) (ht : ∀ c, t.head? = some c → isDigit c = false) :
    scoreAt ("mate".toList ++ ' ' :: (intText y ++ t)) =
      some (.mate (Nat.toDigits 10 y.natAbs)) := by
  have hne : Nat.toDigits 10 y.natAbs ≠ [] := Nat.toDigits_ne_nil
  have hcp : cpAt ("mate".toList ++ ' ' :: (intText y ++ t)) = none := rfl
  rw [scoreAt, hcp]
  simp only [mateAt, takeWord_append, Option.bind_some]
  rw [intText, if_neg (not_lt.mpr hy), List.nil_append, dropWhile_digits, takeWhile_toDigits ht,
    if_neg hne]

/-- The expression has no sign for a mate: a negative one is passed over. -/
theorem search_negative_mate (hy : y < 0) (t : List Char) :
    search scoreAt ("mate".toList ++ ' ' :: (intText y ++ t)) = search scoreAt t := by
  have htext : "mate".toList ++ ' ' :: (intText y ++ t) =
      ("mate -".toList ++ Nat.toDigits 10 y.natAbs) ++ t := by
    rw [intText, if_pos hy]
    rfl
  rw [htext, search_append]
  intro v hv hne
  have hfirst : ∀ u, scoreAt ("mate -".toList ++ u) = none := fun _ => rfl
  have hrest : ∀ v, v <:+ "ate -".toList ++ Nat.toDigits 10 y.natAbs → v ≠ [] →
      scoreAt (v ++ t) = none := by
    intro v hv hne
    obtain ⟨c, v, rfl⟩ := List.exists_cons_of_ne_nil hne
    have hc : c ∈ "ate -".toList ∨ isDigit c = true := by
      rcases List.mem_append.mp (hv.subset List.mem_cons_self) with hc | hc
      · exact .inl hc
      · exact .inr (isDigit_of_mem_toDigits hc)
    refine scoreAt_of_head ?_ ?_
    · rintro rfl
      exact absurd hc (by decide)
    · rintro rfl
      exact absurd hc (by decide)
  rcases List.suffix_cons_iff.mp hv with rfl | hv
  · exact hfirst (Nat.toDigits 10 y.natAbs ++ t)
  · exact hrest v hv hne

theorem search_text (line : InfoLine) :
    search scoreAt line.text = search scoreAt line.scoreText := by
  refine search_wordsText (fun w hw => harmless_of_infoWord ?_) _
  rcases List.mem_append.mp hw with hw | hw
  · exact line.words w hw
  · obtain rfl := List.mem_singleton.mp hw
    exact .name (by decide)

theorem extract_cp (h : line.score = .cp x) :
    extractEvalFromRegex line.text = .ok (some (.centipawns x)) := by
  have hfits := line.fits
  have hsearch : search scoreAt line.text =
      some (.cp (decide (x < 0)) (Nat.toDigits 10 x.natAbs)) := by
    rw [search_text, InfoLine.scoreText, h]
    exact search_of_match (scoreAt_cp x line.ended)
  rw [h, EngineScore.number] at hfits
  have hvalue : (ScoreText.cp (decide (x < 0)) (Nat.toDigits 10 x.natAbs)).value =
      .ok (.centipawns x) := by
    simp only [ScoreText.value, numberOf_toDigits, decide_eq_true_eq]
    split_ifs <;> first | omega | (congr 2; omega)
  rw [extractEvalFromRegex, hsearch]
  simp only [hvalue, Except.map]

theorem extract_mate (h : line.score = .mate y) (hy : 0 ≤ y) :
    extractEvalFromRegex line.text = .ok (some (.mate y.natAbs)) := by
  have hfits := line.fits
  have hsearch : search scoreAt line.text = some (.mate (Nat.toDigits 10 y.natAbs)) := by
    rw [search_text, InfoLine.scoreText, h]
    exact search_of_match (scoreAt_mate hy line.ended)
  rw [h, EngineScore.number] at hfits
  have hvalue : (ScoreText.mate (Nat.toDigits 10 y.natAbs)).value = .ok (.mate y.natAbs) := by
    rw [ScoreText.value, numberOf_toDigits, if_pos (hfits.trans (by decide))]
  rw [extractEvalFromRegex, hsearch]
  simp only [hvalue, Except.map]

theorem extract_negative_mate (h : line.score = .mate y) (hy : y < 0) :
    extractEvalFromRegex line.text = .ok (some (.mate y.natAbs)) ↔
      FirstIsMate line.after y.natAbs := by
  have hsearch : search scoreAt line.text = search scoreAt line.after := by
    rw [search_text, InfoLine.scoreText, h]
    exact search_negative_mate hy _
  have hfits := line.fits
  rw [h, EngineScore.number] at hfits
  simp only [extractEvalFromRegex, hsearch, FirstIsMate, ← search_eq_some]
  cases search scoreAt line.after with
  | none => simp
  | some s =>
    cases s with
    | cp negative digits =>
      simp only [ScoreText.value]
      split_ifs <;> simp [Except.map]
    | mate digits =>
      simp only [ScoreText.value]
      split_ifs with hd
      · simp [Except.map]
      · have hne : ¬ numberOf digits = y.natAbs := by omega
        simp [Except.map, hne]

theorem readsScore_cp (h : line.score = .cp x) : ReadsScore line ↔ Quarters x.natAbs := by
  have hx := extract_cp h
  rw [← pawns_iff]
  constructor
  · rintro ⟨⟨r, hr, his⟩, -⟩
    rw [h] at his
    obtain rfl : r = .centipawns x := Option.some_inj.mp (Except.ok.inj (hr.symm.trans hx))
    exact his
  · intro hpawns
    refine ⟨⟨_, hx, ?_⟩, fun lib fen best ponder =>
      ⟨(Evaluation.ofMoves lib fen best ponder).setScore (some (.centipawns x)), ?_, ?_⟩⟩
    · rw [h]
      exact hpawns
    · simp only [assemble, hx, Except.map]
    · rw [h]
      rfl

theorem readsScore_mate (h : line.score = .mate y) : ReadsScore line ↔
    extractEvalFromRegex line.text = .ok (some (.mate y.natAbs)) := by
  constructor
  · rintro ⟨⟨r, hr, his⟩, -⟩
    rw [h] at his
    obtain rfl : r = .mate y.natAbs := his
    exact hr
  · intro hy
    refine ⟨⟨_, hy, ?_⟩, fun lib fen best ponder =>
      ⟨(Evaluation.ofMoves lib fen best ponder).setScore (some (.mate y.natAbs)), ?_, ?_⟩⟩
    · rw [h]
      rfl
    · simp only [assemble, hy, Except.map]
    · rw [h]
      rfl

theorem readsScore_negative_mate (h : line.score = .mate y) (hy : y < 0) :
    ReadsScore line ↔ FirstIsMate line.after y.natAbs :=
  (readsScore_mate h).trans (extract_negative_mate h hy)

end Score

/-- The score is read with its exact value, exactly when it is in quarters of a
pawn that the division does not miss, or a mate that is not negative, or when the
first score in the text after a negative mate is the same mate without the sign. -/
theorem readsScore_iff (line : InfoLine) : ReadsScore line ↔
    (∀ x, line.score = .cp x → Quarters x.natAbs) ∧
      ∀ y, line.score = .mate y → y < 0 → FirstIsMate line.after y.natAbs := by
  cases hs : line.score with
  | cp x =>
    rw [readsScore_cp hs]
    constructor
    · intro h
      exact ⟨fun x' hx => EngineScore.cp.inj hx ▸ h, nofun⟩
    · exact fun h => h.1 x rfl
  | mate y =>
    by_cases hy : y < 0
    · rw [readsScore_negative_mate hs hy]
      constructor
      · intro h
        exact ⟨nofun, fun y' hy' _ => EngineScore.mate.inj hy' ▸ h⟩
      · exact fun h => h.2 y rfl hy
    · rw [readsScore_mate hs]
      refine iff_of_true (extract_mate hs (not_lt.mp hy)) ⟨nofun, fun y' hy' hlt => ?_⟩
      obtain rfl := EngineScore.mate.inj hy'
      exact absurd hlt hy

/-- `info depth 5 score mate -3`. -/
def matedLine : InfoLine where
  before := [['i', 'n', 'f', 'o'], ['d', 'e', 'p', 't', 'h'], ['5']]
  score := .mate (-3)
  after := []
  words := by
    simp only [List.forall_mem_cons, List.not_mem_nil, false_implies, implies_true, and_true]
    exact ⟨.name (by decide), .name (by decide), .number (by simp [isDigit])⟩
  fits := by decide
  ended := by simp

theorem matedLine_not_readsScore : ¬ ReadsScore matedLine := by
  intro h
  obtain ⟨digits, hfirst, -⟩ := (readsScore_negative_mate rfl (by decide)).mp h
  have hnone : search scoreAt [] = none := rfl
  have hsome := search_eq_some.mpr hfirst
  have hsome : search scoreAt [] = some (.mate digits) := hsome
  rw [hnone] at hsome
  cases hsome

end SmakChess
