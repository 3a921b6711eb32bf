import SmakChess.Centipawns
import SmakChess.Whisperer

/-! One answer to `naive_eval_from_position`, cut into pieces in two ways. -/

namespace SmakChess

open Streams

def readAnswer {a : EngineLines} (d : Cut a.text) : List Char := readUntil hasBestmove [] d.pieces

/-- The first cut by which the word `bestmove` has arrived. -/
def readEnd {a : EngineLines} (d : Cut a.text) : Nat := d.readEnd hasBestmove

def EngineLines.spotAt (a : EngineLines) (n : Nat) : Spot Char := spot none a.infos a.bestmove n

def Evaluation.pawns (ev : Evaluation) : Option ℚ :=
  ev.eval.bind fun x => (Score.centipawns x).pawns

structure SameEvaluation (ev ev' : Evaluation) : Prop where
  bestmove : ev.bestmove = ev'.bestmove
  ponder : ev.ponder = ev'.ponder
  bestmoveStr : ev.bestmoveStr = ev'.bestmoveStr
  ponderStr : ev.ponderStr = ev'.ponderStr
  pawns : ev.pawns = ev'.pawns
  mate : ev.mate = ev'.mate
  mateCount : ev.mateCount = ev'.mateCount

/-- A call that takes a line that is not there has no result. -/
inductive SameResult :
    Except EngineFault (Option Evaluation) → Except EngineFault (Option Evaluation) → Prop
  | nothing : SameResult (.ok none) (.ok none)
  | throws : SameResult (.error .outOfRange) (.error .outOfRange)
  | evaluation {ev ev' : Evaluation} (h : SameEvaluation ev ev') :
      SameResult (.ok (some ev)) (.ok (some ev'))

inductive SameScore : Option Score → Option Score → Prop
  | unscored : SameScore none none
  | centipawns {x y : Int} (h : (Score.centipawns x).pawns = (Score.centipawns y).pawns) :
      SameScore (some (.centipawns x)) (some (.centipawns y))
  | mate (n : Nat) : SameScore (some (.mate n)) (some (.mate n))

/-- The lines of the two places have the same best move, and the same ponder if the places
are behind the ponders. -/
structure SameMoves (s s' : Spot Char) : Prop where
  best : (extractBestmoveFromRegex s.line).map Prod.fst =
    (extractBestmoveFromRegex s'.line).map Prod.fst
  behind : hasPonder s = hasPonder s'
  ponder : hasPonder s = true → (extractBestmoveFromRegex s.line).map Prod.snd =
    (extractBestmoveFromRegex s'.line).map Prod.snd

/-- Neither place is behind a best move; or both are, with info lines before them that hold
numbers out of range, or the same score. -/
inductive Alike (s s' : Spot Char) : Prop
  | nothing (h : hasBest s = false) (h' : hasBest s' = false)
  | throws {info info' : List Char} (h : hasBest s = true) (h' : hasBest s' = true)
      (hinfo : s.before = some info) (hinfo' : s'.before = some info')
      (hscore : extractEvalFromRegex info = .error .outOfRange)
      (hscore' : extractEvalFromRegex info' = .error .outOfRange)
  | evaluation {info info' : List Char} {r r' : Option Score} (h : hasBest s = true)
      (h' : hasBest s' = true) (hmoves : SameMoves s s')
      (hinfo : s.before = some info) (hinfo' : s'.before = some info')
      (hscore : extractEvalFromRegex info = .ok r) (hscore' : extractEvalFromRegex info' = .ok r')
      (hsame : SameScore r r')

section Moves

variable {s s' : Spot Char} {best best' : UciMove} {p p' : Option UciMove}

theorem sameMoves_iff (hs : extractBestmoveFromRegex s.line = some (best, p))
    (hs' : extractBestmoveFromRegex s'.line = some (best', p'))
    (hp : hasPonder s = true → p ≠ none) (hp' : hasPonder s' = true → p' ≠ none) :
    SameMoves s s' ↔ best = best' ∧
      (if hasPonder s = true then p else none) = if hasPonder s' = true then p' else none := by
  constructor
  · rintro ⟨hbest, hbehind, hponder⟩
    rw [hs, hs'] at hbest hponder
    refine ⟨Option.some.inj hbest, ?_⟩
    rw [← hbehind]
    split_ifs with h
    · exact Option.some.inj (hponder h)
    · rfl
  · rintro ⟨rfl, hponder⟩
    have hbehind : hasPonder s = hasPonder s' := by
      cases h : hasPonder s <;> cases h' : hasPonder s' <;> simp_all
    refine ⟨by rw [hs, hs']; rfl, hbehind, fun h => ?_⟩
    rw [if_pos h, if_pos (hbehind ▸ h)] at hponder
    rw [hs, hs', hponder]

theorem SameScore.refl (r : Option Score) : SameScore r r := by
  rcases r with _ | x | n
  · exact .unscored
  · exact .centipawns rfl
  · exact .mate n

/-- Two places in one line behind a readable score are alike when they are on the same side
of the end of the best move, and behind it on the same side of the end of the ponder. -/
theorem alike_iff_of_line {info : List Char} {r : Option Score} (hline : s.line = s'.line)
    (hbefore : s.before = some info) (hbefore' : s'.before = some info)
    (hscore : extractEvalFromRegex info = .ok r) :
    Alike s s' ↔ hasBest s = hasBest s' ∧ (hasBest s = true → hasPonder s = hasPonder s') := by
  constructor
  · intro h
    cases h with
    | nothing h h' => exact ⟨h.trans h'.symm, fun hb => by rw [h] at hb; cases hb⟩
    | throws h h' hinfo hinfo' hthrow =>
      obtain rfl := Option.some.inj (hbefore.symm.trans hinfo)
      rw [hscore] at hthrow
      cases hthrow
    | evaluation h h' hmoves => exact ⟨h.trans h'.symm, fun _ => hmoves.behind⟩
  · rintro ⟨hb, hp⟩
    cases h : hasBest s with
    | false => exact .nothing h (hb ▸ h)
    | true =>
      have hmoves : SameMoves s s' := ⟨by rw [hline], hp h, fun _ => by rw [hline]⟩
      exact .evaluation h (hb ▸ h) hmoves hbefore hbefore' hscore hscore (.refl r)

end Moves

section Results

variable {lib : SanLibrary} {fen info : List Char} {s s' : Spot Char} {best best' : UciMove}
  {p p' : Option UciMove} {r r' : Option Score} {f : EngineFault} {ev : Evaluation}

theorem setScore_bestmove : (ev.setScore r).bestmove = ev.bestmove := by
  rcases r with _ | _ | _ <;> rfl

theorem setScore_ponder : (ev.setScore r).ponder = ev.ponder := by
  rcases r with _ | _ | _ <;> rfl

theorem sameEvaluation_iff :
    SameEvaluation ((Evaluation.ofMoves lib fen best p).setScore r)
        ((Evaluation.ofMoves lib fen best' p').setScore r') ↔
      (best = best' ∧ p = p') ∧ SameScore r r' := by
  constructor
  · intro h
    have hbest := h.bestmove
    have hponder := h.ponder
    rw [setScore_bestmove, setScore_bestmove] at hbest
    rw [setScore_ponder, setScore_ponder] at hponder
    refine ⟨⟨hbest, hponder⟩, ?_⟩
    have hpawns := h.pawns
    have hmate := h.mate
    have hcount := h.mateCount
    rcases r with _ | x | n
    · rcases r' with _ | y | m
      · exact .unscored
      · cases hpawns
      · cases hmate
    · rcases r' with _ | y | m
      · cases hpawns
      · exact .centipawns hpawns
      · cases hmate
    · rcases r' with _ | y | m
      · cases hmate
      · cases hmate
      · obtain rfl : n = m := hcount
        exact .mate n
  · rintro ⟨⟨rfl, rfl⟩, hr⟩
    cases hr with
    | unscored => constructor <;> rfl
    | centipawns h => exact ⟨rfl, rfl, rfl, rfl, h, rfl, rfl⟩
    | mate n => constructor <;> rfl

theorem value_error {t : ScoreText} (h : t.value = .error f) : f = .outOfRange := by
  cases t <;> simp only [ScoreText.value] at h <;> split_ifs at h <;> exact (Except.error.inj h).symm

theorem extractEval_error (h : extractEvalFromRegex info = .error f) : f = .outOfRange := by
  unfold extractEvalFromRegex at h
  cases hs : search scoreAt info with
  | none => simp [hs] at h
  | some t =>
    rw [hs] at h
    cases hv : t.value with
    | error f' =>
      rw [← value_error hv]
      simpa [hv, Except.map] using h.symm
    | ok r => simp [hv, Except.map] at h

/-- What a read that ends at a place makes of it. -/
def resultAt (lib : SanLibrary) (fen : List Char) (s : Spot Char) :
    Except EngineFault (Option Evaluation) :=
  assemble lib fen (extractBestmoveFromRegex (s.line.take s.count)) s.before

theorem resultAt_nothing (h : hasBest s = false) : resultAt lib fen s = .ok none := by
  rw [resultAt, extractBestmove_take, if_neg (by simp [h]), assemble]

theorem resultAt_hasBest (h : hasBest s = true)
    (hs : extractBestmoveFromRegex s.line = some (best, p)) : resultAt lib fen s =
      assemble lib fen (some (best, if hasPonder s = true then p else none)) s.before := by
  rw [resultAt, extractBestmove_take, if_pos h, hs, Option.map_some]

theorem resultAt_lines (h : hasBest s = true) (hb : s.before = none) :
    resultAt lib fen s = .error .lines := by
  obtain ⟨best, p, hs, -⟩ := extractBestmove_of_hasBest h
  rw [resultAt_hasBest h hs, hb, assemble]

theorem resultAt_throws (h : hasBest s = true) (hb : s.before = some info)
    (hscore : extractEvalFromRegex info = .error f) : resultAt lib fen s = .error .outOfRange := by
  obtain rfl := extractEval_error hscore
  obtain ⟨best, p, hs, -⟩ := extractBestmove_of_hasBest h
  rw [resultAt_hasBest h hs, hb, assemble, hscore]
  rfl

theorem resultAt_evaluation (h : hasBest s = true)
    (hs : extractBestmoveFromRegex s.line = some (best, p)) (hb : s.before = some info)
    (hscore : extractEvalFromRegex info = .ok r) : resultAt lib fen s = .ok (some
      ((Evaluation.ofMoves lib fen best (if hasPonder s = true then p else none)).setScore r)) := by
  rw [resultAt_hasBest h hs, hb, assemble, hscore]
  rfl

theorem sameResult_of_alike (h : Alike s s') :
    SameResult (resultAt lib fen s) (resultAt lib fen s') := by
  cases h with
  | nothing h h' =>
    rw [resultAt_nothing h, resultAt_nothing h']
    exact .nothing
  | throws h h' hinfo hinfo' hscore hscore' =>
    rw [resultAt_throws h hinfo hscore, resultAt_throws h' hinfo' hscore']
    exact .throws
  | evaluation h h' hmoves hinfo hinfo' hscore hscore' hsame =>
    obtain ⟨best, p, hs, hp⟩ := extractBestmove_of_hasBest h
    obtain ⟨best', p', hs', hp'⟩ := extractBestmove_of_hasBest h'
    rw [resultAt_evaluation h hs hinfo hscore, resultAt_evaluation h' hs' hinfo' hscore']
    exact .evaluation (sameEvaluation_iff.mpr ⟨(sameMoves_iff hs hs' hp hp').mp hmoves, hsame⟩)

/-- What one place gives, for each kind of result. -/
inductive Gives (lib : SanLibrary) (fen : List Char) (s : Spot Char) :
    Except EngineFault (Option Evaluation) → Prop
  | nothing (h : hasBest s = false) : Gives lib fen s (.ok none)
  | lines : Gives lib fen s (.error .lines)
  | throws {info : List Char} (h : hasBest s = true) (hinfo : s.before = some info)
      (hscore : extractEvalFromRegex info = .error .outOfRange) :
      Gives lib fen s (.error .outOfRange)
  | evaluation {best : UciMove} {p : Option UciMove} {info : List Char} {r : Option Score}
      (h : hasBest s = true) (hs : extractBestmoveFromRegex s.line = some (best, p))
      (hp : hasPonder s = true → p ≠ none) (hinfo : s.before = some info)
      (hscore : extractEvalFromRegex info = .ok r) :
      Gives lib fen s (.ok (some
        ((Evaluation.ofMoves lib fen best (if hasPonder s = true then p else none)).setScore r)))

theorem gives_resultAt (lib : SanLibrary) (fen : List Char) (s : Spot Char) :
    Gives lib fen s (resultAt lib fen s) := by
  cases h : hasBest s with
  | false =>
    rw [resultAt_nothing h]
    exact .nothing h
  | true =>
    cases hb : s.before with
    | none =>
      rw [resultAt_lines h hb]
      exact .lines
    | some info =>
      cases hscore : extractEvalFromRegex info with
      | error f =>
        rw [resultAt_throws h hb hscore]
        exact .throws h hb (extractEval_error hscore ▸ hscore)
      | ok r =>
        obtain ⟨best, p, hs, hp⟩ := extractBestmove_of_hasBest h
        rw [resultAt_evaluation h hs hb hscore]
        exact .evaluation h hs hp hb hscore

theorem alike_of_sameResult (h : SameResult (resultAt lib fen s) (resultAt lib fen s')) :
    Alike s s' := by
  have hg := gives_resultAt lib fen s
  have hg' := gives_resultAt lib fen s'
  generalize resultAt lib fen s = x at h hg
  generalize resultAt lib fen s' = y at h hg'
  cases h with
  | nothing =>
    cases hg with
    | nothing h => cases hg' with
      | nothing h' => exact .nothing h h'
  | throws =>
    cases hg with
    | throws h hinfo hscore => cases hg' with
      | throws h' hinfo' hscore' => exact .throws h h' hinfo hinfo' hscore hscore'
  | evaluation hev =>
    cases hg with
    | evaluation h hs hp hinfo hscore => cases hg' with
      | evaluation h' hs' hp' hinfo' hscore' =>
        obtain ⟨hmoves, hsame⟩ := sameEvaluation_iff.mp hev
        exact .evaluation h h' ((sameMoves_iff hs hs' hp hp').mpr hmoves) hinfo hinfo' hscore
          hscore' hsame

end Results

section Cuts

variable {a : EngineLines} {n : Nat}

theorem naiveEval_take (lib : SanLibrary) (fen : List Char) (a : EngineLines) (hn : 0 < n) :
    naiveEval lib fen (a.text.take n) = resultAt lib fen (a.spotAt n) := by
  obtain ⟨pre, hlines, hbefore⟩ := getlines_take_spot
    (show isNewline '\n' = true from rfl) a.infos_line a.bestmove_line none hn
  have hlast : lastLine (a.text.take n) = some ((a.spotAt n).line.take (a.spotAt n).count) := by
    rw [lastLine, EngineLines.text, EngineLines.infoText, hlines, List.getLast?_concat]
    rfl
  have hprev : lineBefore (a.text.take n) = (a.spotAt n).before := by
    rw [lineBefore, EngineLines.text, EngineLines.infoText, hlines, List.dropLast_concat,
      EngineLines.spotAt, ← hbefore, Option.or_none]
  rw [naiveEval, hlast, hprev]
  rfl

theorem readAnswer_eq_take (d : Cut a.text) : readAnswer d = a.text.take (readEnd d) :=
  readUntil_eq_readEnd d

theorem readEnd_pos (d : Cut a.text) : 0 < readEnd d := by
  have htext : bestmoveWord <:+: a.text :=
    (a.bestmove_word.trans (List.prefix_append _ _)).isInfix.trans (List.suffix_append _ _).isInfix
  have hfound : hasBestmove (readAnswer d) = true := by
    apply found_readUntil
    rw [List.nil_append, d.flatten]
    exact decide_eq_true htext
  rw [readAnswer_eq_take] at hfound
  by_contra hzero
  rw [Nat.eq_zero_of_not_pos hzero, List.take_zero] at hfound
  exact absurd hfound (by decide)

end Cuts

def whole : Cut shortAnswer.text := ⟨[shortAnswer.text], List.append_nil _⟩

def cutAfterWord : Cut shortAnswer.text :=
  ⟨[shortAnswer.text.take 32, shortAnswer.text.drop 32], by decide⟩

end SmakChess
