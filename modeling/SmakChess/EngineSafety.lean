import SmakChess.EvalLoop

/-! When the evaluation functions take nothing that is not there: a line, a
value of an empty optional, the first of no moves, a score that was not set. -/

namespace SmakChess

open Loops

def HasScore (read : List Char) : Prop :=
  ∃ line info x, lastLine read = some line ∧ extractBestmoveFromRegex line ≠ none ∧
    lineBefore read = some info ∧ extractEvalFromRegex info = .ok (some (.centipawns x))

def HasBestmove (read : List Char) : Prop :=
  ∃ line, lastLine read = some line ∧ extractBestmoveFromRegex line ≠ none

/-- The function returns, and a value of `m_eval` with an evaluation. -/
def NaiveSafe (san : SanLibrary) (fen read : List Char) : Prop :=
  ∃ r, naiveEval san fen read = .ok r ∧ ∀ ev, r = some ev → ev.eval ≠ none

/-- The engine as `naive_eval_from_position` sees it, when the read for move `i`
gives `reads i`. -/
def readEngine (san : SanLibrary) (reads : Nat → List Char) (i : Nat) : EngineCall :=
  fun fen => naiveEval san fen.toList (reads i)

def FenSafe (lib : Chess.GameLibrary) (san : SanLibrary) (fen : String) (read : List Char) :
    Prop :=
  ∃ r, lib.getEvalsFromFen (fun fen => naiveEval san fen.toList read) fen = .ok r ∧
    ∀ ev, r = some ev → ev.eval ≠ none

def GameSafe (lib : Chess.GameLibrary) (san : SanLibrary) (moves : List Chess.Move)
    (reads : Nat → List Char) : Prop :=
  ∃ evals, lib.getEvalsFromGame (readEngine san reads) moves = .ok evals ∧
    ∀ r ∈ evals, ∀ ev, r = some ev → ev.eval ≠ none

def FenListSafe (lib : Chess.Library) (moves : List Chess.Move) : Prop :=
  ∃ fens, lib.getFenListFromGame moves = some fens

def AnsweredEndAt (lib : Chess.GameLibrary) (moves : List Chess.Move)
    (reads : Nat → List Char) (i : Nat) : Prop :=
  ∃ m, moves[i]? = some m ∧ lib.finds (lib.reached lib.finds lib.start moves i) m = true ∧
    Answers (reads i) ∧ (lib.isGameOver (lib.afterMove moves i m)).2 ≠ .none

section Naive

variable {lib : Chess.GameLibrary} {san : SanLibrary} {fen read : List Char}
  {moves : List Chess.Move} {reads : Nat → List Char} {ev : Evaluation} {i : Nat}

theorem setScore_eval {best : UciMove} {p : Option UciMove} {sc : Option Score} :
    ((Evaluation.ofMoves san fen best p).setScore sc).eval ≠ none ↔
      ∃ x, sc = some (.centipawns x) := by
  cases sc with
  | none => simp [Evaluation.setScore, Evaluation.ofMoves]
  | some sc => cases sc <;> simp [Evaluation.setScore, Evaluation.ofMoves]

theorem naiveEval_eq_none (h : ¬ HasBestmove read) : naiveEval san fen read = .ok none := by
  unfold naiveEval
  cases hline : lastLine read with
  | none => rfl
  | some line =>
    have hmove : extractBestmoveFromRegex line = none := by
      by_contra hne
      exact h ⟨line, hline, hne⟩
    simp [hmove, assemble]

theorem naiveEval_ne_none (h : HasBestmove read) : naiveEval san fen read ≠ .ok none := by
  obtain ⟨line, hline, hmove⟩ := h
  obtain ⟨⟨best, p⟩, hb⟩ := Option.ne_none_iff_exists'.mp hmove
  unfold naiveEval
  rw [hline]
  simp only [assemble, hb]
  cases hinfo : lineBefore read with
  | none => simp
  | some info => cases hs : extractEvalFromRegex info <;> simp [hs, Except.map]

theorem hasScore_iff (san : SanLibrary) (fen : List Char) :
    HasScore read ↔ ∃ ev, naiveEval san fen read = .ok (some ev) ∧ ev.eval ≠ none := by
  constructor
  · rintro ⟨line, info, x, hline, hmove, hinfo, hs⟩
    obtain ⟨⟨best, p⟩, hb⟩ := Option.ne_none_iff_exists'.mp hmove
    exact ⟨_, naiveEval_eq_some.mpr ⟨line, best, p, info, _, hline, hb, hinfo, hs, rfl⟩,
      setScore_eval.mpr ⟨x, rfl⟩⟩
  · rintro ⟨ev, h, hev⟩
    obtain ⟨line, best, p, info, sc, hline, hb, hinfo, hs, rfl⟩ := naiveEval_eq_some.mp h
    obtain ⟨x, rfl⟩ := setScore_eval.mp hev
    exact ⟨line, info, x, hline, by simp [hb], hinfo, hs⟩

theorem naiveSafe_iff (san : SanLibrary) (fen read : List Char) :
    NaiveSafe san fen read ↔ (HasBestmove read → HasScore read) := by
  constructor
  · rintro ⟨r, hr, hgood⟩ hbest
    cases r with
    | none => exact absurd hr (naiveEval_ne_none hbest)
    | some ev => exact (hasScore_iff san fen).mpr ⟨ev, hr, hgood ev rfl⟩
  · intro h
    by_cases hbest : HasBestmove read
    · obtain ⟨ev, hev, hset⟩ := (hasScore_iff san fen).mp (h hbest)
      refine ⟨some ev, hev, fun ev' h' => ?_⟩
      obtain rfl := Option.some.inj h'
      exact hset
    · exact ⟨none, naiveEval_eq_none hbest, fun ev h' => by cases h'⟩

theorem withResult_eval {result : Chess.GameResultReason × Chess.GameResult} {side : Color} :
    (ev.withResult result side).eval ≠ none ↔ ev.eval ≠ none := by
  simp only [Evaluation.withResult]
  split_ifs <;> simp

theorem fenSafe_iff (lib : Chess.GameLibrary) (san : SanLibrary) (fen : String)
    (read : List Char) : FenSafe lib san fen read ↔ HasScore read := by
  rw [hasScore_iff san fen.toList]
  unfold FenSafe Chess.GameLibrary.getEvalsFromFen
  cases hr : naiveEval san fen.toList read with
  | error f => simp [hr]
  | ok r =>
    cases r with
    | none => simp [hr]
    | some ev => simp [hr, withResult_eval]

theorem evalEntry_good_iff {b : lib.Board} :
    (∃ x stop, lib.evalEntry b (naiveEval san fen read) = .ok (x, stop) ∧
        ∀ ev, x = some ev → ev.eval ≠ none) ↔ (HasBestmove read → HasScore read) := by
  rw [← naiveSafe_iff san fen read, NaiveSafe]
  cases hr : naiveEval san fen read with
  | error f => simp [Chess.GameLibrary.evalEntry]
  | ok r =>
    cases r with
    | none => simp [Chess.GameLibrary.evalEntry]
    | some ev => simp [Chess.GameLibrary.evalEntry, withResult_eval]

theorem evalEndsAt_readEngine :
    lib.EvalEndsAt (readEngine san reads) moves i ↔ AnsweredEndAt lib moves reads i := by
  refine exists_congr fun m => and_congr_right fun _ => and_congr_right fun _ =>
    and_congr_left fun _ => ?_
  exact (answers_iff san _).symm

theorem gameSafe_iff (lib : Chess.GameLibrary) (san : SanLibrary) (moves : List Chess.Move)
    (reads : Nat → List Char) : GameSafe lib san moves reads ↔
      moves ≠ [] ∧ ∀ i m, moves[i]? = some m →
        lib.finds (lib.reached lib.finds lib.start moves i) m = true →
        (∀ j, j < i → ¬ AnsweredEndAt lib moves reads j) →
        HasBestmove (reads i) → HasScore (reads i) := by
  by_cases hne : moves = []
  · subst hne
    simp [GameSafe, Chess.GameLibrary.getEvalsFromGame]
  · rw [GameSafe, Chess.GameLibrary.getEvalsFromGame_eq_loop hne, loop_good_iff]
    simp only [ne_eq, hne, not_false_eq_true, true_and]
    refine forall_congr' fun i => forall_congr' fun m => imp_congr_right fun hm => ?_
    rw [Chess.GameLibrary.evalStep_at hm]
    simp only [Chess.GameLibrary.stops_evalStep, evalEndsAt_readEngine]
    by_cases hf : lib.finds (lib.reached lib.finds lib.start moves i) m = true
    · rw [if_pos hf]
      simp only [hf, true_implies]
      exact imp_congr_right fun _ => evalEntry_good_iff
    · rw [if_neg hf]
      simp [hf]

theorem fenListSafe_iff (lib : Chess.Library) (moves : List Chess.Move) :
    FenListSafe lib moves ↔ moves ≠ [] := by
  simp [FenListSafe, Chess.Library.getFenListFromGame_eq_some]

end Naive

/-- A text may have no best move; one with a best move needs a line with
centipawns before it. `getEvalsFromFen` needs both, and the functions over a
game at least one move. -/
theorem analyses_safe_iff (lib : Chess.GameLibrary) (san : SanLibrary) :
    (∀ fen read, NaiveSafe san fen read ↔ (HasBestmove read → HasScore read)) ∧
    (∀ fen read, FenSafe lib san fen read ↔ HasScore read) ∧
    (∀ moves reads, GameSafe lib san moves reads ↔
      moves ≠ [] ∧ ∀ i m, moves[i]? = some m →
        lib.finds (lib.reached lib.finds lib.start moves i) m = true →
        (∀ j, j < i → ¬ AnsweredEndAt lib moves reads j) →
        HasBestmove (reads i) → HasScore (reads i)) ∧
    ∀ moves, FenListSafe lib.toLibrary moves ↔ moves ≠ [] :=
  ⟨naiveSafe_iff san, fenSafe_iff lib san, gameSafe_iff lib san, fenListSafe_iff lib.toLibrary⟩

/-- A best move alone, no answer to a FEN, and no moves. -/
theorem analyses_not_safe :
    ¬ NaiveSafe pawnMoves [] "bestmove e2e4\n".toList ∧
    ¬ FenSafe rulesGames pawnMoves "rnbqkbnr/pppppppp/8/8/8/8/PPPPPPPP/RNBQKBNR w KQkq - 0 1" [] ∧
    ¬ GameSafe rulesGames pawnMoves [] (fun _ => []) ∧ ¬ FenListSafe rulesLibrary [] := by
  refine ⟨?_, ?_, ?_, ?_⟩
  · rintro ⟨r, hr, -⟩
    have hfault : naiveEval pawnMoves [] "bestmove e2e4\n".toList = .error .lines := by decide
    rw [hfault] at hr
    cases hr
  · rintro ⟨r, hr, -⟩
    cases hr
  · rintro ⟨evals, hevals, -⟩
    cases hevals
  · rintro ⟨fens, hfens⟩
    cases hfens

end SmakChess
