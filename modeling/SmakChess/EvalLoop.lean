import SmakChess.CodedGame
import SmakChess.Whisperer

/-! `getEvalsFromGame` and `getEvalsFromFen`, and the two loops over a game next
to each other. -/

namespace SmakChess

open Loops

/-- The library with the operations that only the evaluations need. -/
structure Chess.GameLibrary extends Chess.Library where
  sideToMove : Board → Color
  setFen : String → Board

structure GameEvaluation extends Evaluation where
  reason : Chess.GameResultReason
  res : Chess.GameResult
  deriving DecidableEq, Repr

/-- `firstMove` is `moves.at(0)` of an empty vector. -/
inductive AnalysisFault
  | firstMove
  | emptyOptional
  | engine (f : EngineFault)
  deriving DecidableEq, Repr

def Evaluation.withResult (ev : Evaluation)
    (result : Chess.GameResultReason × Chess.GameResult) (side : Color) : GameEvaluation :=
  { ev with
    reason := result.1
    res := result.2
    eval := if side = .black then ev.eval.map fun x => -x else ev.eval }

/-- What `naive_eval_from_position` returns or throws, for a FEN. -/
abbrev EngineCall := String → Except EngineFault (Option Evaluation)

namespace Chess.GameLibrary

variable (lib : Chess.GameLibrary)

/-- The loop of `getEvalsFromGame`. `engine i` is the call made for move `i`. -/
def evalsFrom (engine : Nat → EngineCall) (i : Nat) (b : lib.Board) :
    List Chess.Move → Except AnalysisFault (List (Option GameEvaluation))
  | [] => .ok []
  | m :: ms =>
    if lib.finds b m then
      let b := lib.makeMove b m
      match engine i (lib.getFen b) with
      | .error f => .error (.engine f)
      | .ok none => (evalsFrom engine (i + 1) b ms).map (none :: ·)
      | .ok (some ev) =>
        let ev := ev.withResult (lib.isGameOver b) (lib.sideToMove b)
        if ev.res ≠ .none then .ok [some ev]
        else (evalsFrom engine (i + 1) b ms).map (some ev :: ·)
    else (evalsFrom engine (i + 1) (lib.makeNullMove b) ms).map (none :: ·)

def getEvalsFromGame (engine : Nat → EngineCall) (moves : List Chess.Move) :
    Except AnalysisFault (List (Option GameEvaluation)) :=
  match moves with
  | [] => .error .firstMove
  | _ => lib.evalsFrom engine 0 lib.start moves

def getEvalsFromFen (engine : EngineCall) (fen : String) :
    Except AnalysisFault (Option GameEvaluation) :=
  match engine fen with
  | .error f => .error (.engine f)
  | .ok none => .error .emptyOptional
  | .ok (some ev) =>
    let b := lib.setFen fen
    .ok (some (ev.withResult (lib.isGameOver b) (lib.sideToMove b)))

def evalEntry (b : lib.Board) :
    Except EngineFault (Option Evaluation) → Except AnalysisFault (Option GameEvaluation × Bool)
  | .error f => .error (.engine f)
  | .ok none => .ok (none, false)
  | .ok (some ev) =>
    .ok (some (ev.withResult (lib.isGameOver b) (lib.sideToMove b)), (lib.isGameOver b).2 != .none)

def evalStep (engine : Nat → EngineCall) (s : Nat × lib.Board) (m : Chess.Move) :
    Except AnalysisFault (Option GameEvaluation × Bool) :=
  if lib.finds s.2 m then
    lib.evalEntry (lib.makeMove s.2 m) (engine s.1 (lib.getFen (lib.makeMove s.2 m)))
  else .ok (none, false)

def evalNext (s : Nat × lib.Board) (m : Chess.Move) : Nat × lib.Board :=
  (s.1 + 1, lib.playOrPass lib.finds s.2 m)

/-- A reason is given exactly with a result. -/
def ReportsBoth : Prop := ∀ b, (lib.isGameOver b).1 = .none ↔ (lib.isGameOver b).2 = .none

def afterMove (moves : List Chess.Move) (i : Nat) (m : Chess.Move) : lib.Board :=
  lib.makeMove (lib.reached lib.finds lib.start moves i) m

/-- Move `i` is legal, the engine evaluates the position after it, and the game
has a result there. -/
def EvalEndsAt (engine : Nat → EngineCall) (moves : List Chess.Move) (i : Nat) : Prop :=
  ∃ m, moves[i]? = some m ∧
    lib.finds (lib.reached lib.finds lib.start moves i) m = true ∧
    (∃ ev, engine i (lib.getFen (lib.afterMove moves i m)) = .ok (some ev)) ∧
    (lib.isGameOver (lib.afterMove moves i m)).2 ≠ .none

variable {lib} {engine : Nat → EngineCall} {b : lib.Board} {m : Chess.Move}
  {ms moves : List Chess.Move} {i j : Nat}

theorem evalEntry_eq_ok {r : Except EngineFault (Option Evaluation)}
    {x : Option GameEvaluation} {stop : Bool} : lib.evalEntry b r = .ok (x, stop) ↔
      r = .ok none ∧ x = none ∧ stop = false ∨
        ∃ ev, r = .ok (some ev) ∧
          x = some (ev.withResult (lib.isGameOver b) (lib.sideToMove b)) ∧
          stop = ((lib.isGameOver b).2 != .none) := by
  cases r with
  | error f => simp [evalEntry]
  | ok r =>
    cases r with
    | none => simp [evalEntry, eq_comm]
    | some ev => simp [evalEntry, eq_comm]

theorem loop_evalStep (engine : Nat → EngineCall) (i : Nat) (b : lib.Board)
    (ms : List Chess.Move) :
    loop (lib.evalStep engine) lib.evalNext (i, b) ms = lib.evalsFrom engine i b ms := by
  induction ms generalizing i b with
  | nil => rfl
  | cons m ms ih =>
    by_cases hm : lib.finds b m = true
    · have hnext : lib.evalNext (i, b) m = (i + 1, lib.makeMove b m) := by
        simp [evalNext, Chess.Library.playOrPass, hm]
      have hstep : lib.evalStep engine (i, b) m =
          lib.evalEntry (lib.makeMove b m) (engine i (lib.getFen (lib.makeMove b m))) := if_pos hm
      unfold loop evalsFrom
      rw [hstep, if_pos hm]
      cases hev : engine i (lib.getFen (lib.makeMove b m)) with
      | error f => simp [hev, evalEntry]
      | ok r =>
        cases r with
        | none => simp [hev, evalEntry, hnext, ih]
        | some ev =>
          by_cases hover : (lib.isGameOver (lib.makeMove b m)).2 = .none
          · simp [hev, evalEntry, hover, hnext, ih, Evaluation.withResult]
          · have hstop : ((lib.isGameOver (lib.makeMove b m)).2 != .none) = true := by simp [hover]
            simp [hev, evalEntry, hover, hstop, Evaluation.withResult]
    · have hnext : lib.evalNext (i, b) m = (i + 1, lib.makeNullMove b) := by
        simp [evalNext, Chess.Library.playOrPass, hm]
      simp [loop, evalsFrom, evalStep, hm, hnext, ih]

theorem stateAt_evalNext (h : j ≤ ms.length) :
    stateAt lib.evalNext (i, b) ms j = (i + j, lib.reached lib.finds b ms j) := by
  induction ms generalizing i b j with
  | nil =>
    obtain rfl : j = 0 := by simpa using h
    rfl
  | cons m ms ih =>
    cases j with
    | zero => rfl
    | succ j =>
      rw [stateAt_succ, evalNext, ih (by simpa using h), Nat.add_right_comm]
      rfl

theorem evalStep_at (hm : moves[i]? = some m) :
    lib.evalStep engine (stateAt lib.evalNext (0, lib.start) moves i) m =
      if lib.finds (lib.reached lib.finds lib.start moves i) m then
        lib.evalEntry (lib.afterMove moves i m) (engine i (lib.getFen (lib.afterMove moves i m)))
      else .ok (none, false) := by
  obtain ⟨hlt, -⟩ := List.getElem?_eq_some_iff.mp hm
  rw [stateAt_evalNext hlt.le, Nat.zero_add]
  rfl

theorem stops_evalStep : Stops (lib.evalStep engine) lib.evalNext (0, lib.start) moves i ↔
    lib.EvalEndsAt engine moves i := by
  constructor
  · rintro ⟨m, x, hm, hstep⟩
    rw [evalStep_at hm] at hstep
    split_ifs at hstep with hf
    · rcases evalEntry_eq_ok.mp hstep with ⟨-, -, hstop⟩ | ⟨ev, hev, -, hstop⟩
      · cases hstop
      · exact ⟨m, hm, hf, ⟨ev, hev⟩, bne_iff_ne.mp hstop.symm⟩
    · cases (Prod.mk.inj (Except.ok.inj hstep)).2
  · rintro ⟨m, hm, hf, ⟨ev, hev⟩, hover⟩
    refine ⟨m, some (ev.withResult (lib.isGameOver (lib.afterMove moves i m))
      (lib.sideToMove (lib.afterMove moves i m))), hm, ?_⟩
    rw [evalStep_at hm, if_pos hf]
    exact evalEntry_eq_ok.mpr (.inr ⟨ev, hev, rfl, (bne_iff_ne.mpr hover).symm⟩)

theorem getEvalsFromGame_eq_loop (hne : moves ≠ []) : lib.getEvalsFromGame engine moves =
    loop (lib.evalStep engine) lib.evalNext (0, lib.start) moves := by
  rw [loop_evalStep]
  cases moves with
  | nil => exact absurd rfl hne
  | cons m ms => rfl

theorem breaks_evals {evals : List (Option GameEvaluation)} (hne : moves ≠ [])
    (h : lib.getEvalsFromGame engine moves = .ok evals) :
    Breaks (lib.EvalEndsAt engine moves) moves.length evals.length := by
  rw [getEvalsFromGame_eq_loop hne] at h
  have hstops : Stops (lib.evalStep engine) lib.evalNext (0, lib.start) moves =
      lib.EvalEndsAt engine moves := funext fun _ => propext stops_evalStep
  rw [← hstops]
  exact (loop_spec h).1

theorem evals_getElem? {evals : List (Option GameEvaluation)} {ev : GameEvaluation}
    (hne : moves ≠ []) (h : lib.getEvalsFromGame engine moves = .ok evals)
    (hi : evals[i]? = some (some ev)) :
    ∃ m raw, moves[i]? = some m ∧
      lib.finds (lib.reached lib.finds lib.start moves i) m = true ∧
      engine i (lib.getFen (lib.afterMove moves i m)) = .ok (some raw) ∧
      ev = raw.withResult (lib.isGameOver (lib.afterMove moves i m))
        (lib.sideToMove (lib.afterMove moves i m)) := by
  rw [getEvalsFromGame_eq_loop hne] at h
  obtain ⟨m, stop, hm, hstep⟩ := (loop_spec h).2 i _ hi
  rw [evalStep_at hm] at hstep
  split_ifs at hstep with hf
  · rcases evalEntry_eq_ok.mp hstep with ⟨-, hx, -⟩ | ⟨raw, hraw, hx, -⟩
    · cases hx
    · exact ⟨m, raw, hm, hf, hraw, Option.some.inj hx⟩
  · cases (Prod.mk.inj (Except.ok.inj hstep)).1

end Chess.GameLibrary

/-- Both lists end at the same ply, and each evaluation is that of the FEN at
its index. -/
def AnalysesAgree (lib : Chess.GameLibrary) (engine : String → Option Evaluation)
    (moves : List Chess.Move) : Prop :=
  ∃ evals fens, lib.getEvalsFromGame (fun _ fen => .ok (engine fen)) moves = .ok evals ∧
    lib.getFenListFromGame moves = some fens ∧ evals.length = fens.length ∧
    ∀ (i : Nat) ev, evals[i]? = some (some ev) →
      ∃ fen raw result side, fens[i]? = some (some fen) ∧ engine fen = some raw ∧
        ev = raw.withResult result side

section Agreement

variable {lib : Chess.GameLibrary} {engine : String → Option Evaluation}
  {moves : List Chess.Move} {i : Nat}

theorem exists_evals (hne : moves ≠ []) :
    ∃ evals, lib.getEvalsFromGame (fun _ fen => .ok (engine fen)) moves = .ok evals := by
  rw [Chess.GameLibrary.getEvalsFromGame_eq_loop hne]
  obtain ⟨evals, h, -⟩ : ∃ evals, loop (lib.evalStep fun _ fen => .ok (engine fen)) lib.evalNext
      (0, lib.start) moves = .ok evals ∧ ∀ x ∈ evals, True := by
    refine (loop_good_iff _).mpr fun i m hm _ => ?_
    rw [Chess.GameLibrary.evalStep_at hm]
    split_ifs
    · cases engine (lib.getFen (lib.afterMove moves i m)) with
      | none => exact ⟨_, _, rfl, trivial⟩
      | some ev => exact ⟨_, _, rfl, trivial⟩
    · exact ⟨_, _, rfl, trivial⟩
  exact ⟨evals, h⟩

theorem analysesAgree_iff_length {evals : List (Option GameEvaluation)} (hne : moves ≠ [])
    (he : lib.getEvalsFromGame (fun _ fen => .ok (engine fen)) moves = .ok evals) :
    AnalysesAgree lib engine moves ↔
      (lib.fensFrom lib.start moves).length = evals.length := by
  have hfens : lib.getFenListFromGame moves = some (lib.fensFrom lib.start moves) :=
    Chess.Library.getFenListFromGame_eq_some.mpr ⟨hne, rfl⟩
  constructor
  · rintro ⟨evals', fens, he', hf, hlen, -⟩
    obtain rfl := Except.ok.inj (he.symm.trans he')
    obtain rfl := Option.some.inj (hfens.symm.trans hf)
    exact hlen.symm
  · intro hlen
    refine ⟨evals, _, he, hfens, hlen.symm, fun i ev hi => ?_⟩
    obtain ⟨m, raw, hm, hf, hraw, hev⟩ := Chess.GameLibrary.evals_getElem? hne he hi
    obtain ⟨hlt, -⟩ := List.getElem?_eq_some_iff.mp hi
    obtain ⟨e, he'⟩ : ∃ e, (lib.fensFrom lib.start moves)[i]? = some e :=
      ⟨_, List.getElem?_eq_getElem (hlen ▸ hlt)⟩
    obtain ⟨m', hm', hentry⟩ := Chess.Library.fensFrom_getElem? he'
    obtain rfl : m = m' := by simpa using hm.symm.trans hm'
    rw [if_pos hf] at hentry
    exact ⟨_, raw, _, _, hentry ▸ he', Except.ok.inj hraw, hev⟩

theorem evalEndsAt_iff (hover : lib.ReportsBoth) {m : Chess.Move} (hm : moves[i]? = some m)
    (hends : lib.EndsAt lib.finds lib.start moves i) :
    lib.EvalEndsAt (fun _ fen => .ok (engine fen)) moves i ↔
      engine (lib.getFen (lib.afterMove moves i m)) ≠ none := by
  obtain ⟨m', hm', hf, hreason⟩ := hends
  obtain rfl : m = m' := by simpa using hm.symm.trans hm'
  constructor
  · rintro ⟨m', hm', -, ⟨ev, hev⟩, -⟩
    obtain rfl : m = m' := by simpa using hm.symm.trans hm'
    rw [Except.ok.inj hev]
    exact Option.some_ne_none ev
  · intro hne
    obtain ⟨ev, hev⟩ := Option.ne_none_iff_exists'.mp hne
    exact ⟨m, hm, hf, ⟨ev, congrArg Except.ok hev⟩, fun hres => hreason ((hover _).mpr hres)⟩

/-- The lists agree when the evaluations end where the FENs do. -/
theorem agree_iff_ends (hover : lib.ReportsBoth) (hne : moves ≠ []) :
    AnalysesAgree lib engine moves ↔ ∀ i, i + 1 < moves.length →
      FirstAt (lib.EndsAt lib.finds lib.start moves) i →
      lib.EvalEndsAt (fun _ fen => .ok (engine fen)) moves i := by
  obtain ⟨evals, he⟩ : ∃ evals,
      lib.getEvalsFromGame (fun _ fen => .ok (engine fen)) moves = .ok evals := exists_evals hne
  have hsub (i : Nat) (h : lib.EvalEndsAt (fun _ fen => .ok (engine fen)) moves i) :
      lib.EndsAt lib.finds lib.start moves i := by
    obtain ⟨m, hm, hf, -, hres⟩ := h
    exact ⟨m, hm, hf, fun hreason => hres ((hover _).mp hreason)⟩
  rw [analysesAgree_iff_length hne he,
    (Chess.Library.breaks_fensFrom lib.start moves).eq_iff hsub
      (Chess.GameLibrary.breaks_evals hne he)]

/-- A legal game that is over at its last ply, where the engine fails, and one
more move. -/
theorem not_agrees_of_over {shows : lib.Board → Played → Prop} (hr : lib.FollowsRules shows)
    (hover : lib.ReportsBoth) {ms : List Move} {m : Move}
    (hl : Position.initial.legalGame (ms ++ [m])) (c : Chess.Move)
    (hgoes : ∀ j < ms.length, ∀ b, shows b ((ms.take (j + 1)).foldl Played.play .initial) →
      (lib.isGameOver b).1 = .none)
    (hends : ∀ b, shows b ((ms.foldl Played.play .initial).play m) →
      (lib.isGameOver b).1 ≠ .none ∧ engine (lib.getFen b) = none) :
    ¬ AnalysesAgree lib engine (Position.initial.codesFrom (ms ++ [m]) ++ [c]) := by
  have hiff {j : Nat} (hj : j < (ms ++ [m]).length) :=
    endsAt_codesFrom_iff hr (q := .initial) hr.start hl [c] (j := j) hj
  have hshow {j : Nat} (hj : j ≤ (ms ++ [m]).length) :=
    shows_reached hr (q := .initial) hr.start hl [c] (j := j) hj
  have hlen : (ms ++ [m]).length = ms.length + 1 := by simp
  have hm : (ms ++ [m])[ms.length]? = some m := List.getElem?_concat_length
  have hcode := Position.codesFrom_getElem? (p := .initial) [c] hm
  have hlegal := Position.legal_of_legalGame hl hm
  have hbefore := hshow (j := ms.length) (by omega)
  rw [List.take_left' rfl] at hcode hlegal hbefore
  rw [← Played.position_initial, ← position_foldl_play] at hcode hlegal
  have hafter := hends _ (hr.makeMove _ _ m hbefore hlegal)
  have hfirst : FirstAt (lib.EndsAt lib.finds lib.start
      (Position.initial.codesFrom (ms ++ [m]) ++ [c])) ms.length := by
    refine ⟨⟨_, hcode, finds_code hr hbefore hlegal, hafter.1⟩, fun j hj hend => ?_⟩
    have hnext := hshow (j := j + 1) (by omega)
    rw [List.take_append_of_le_length (by omega)] at hnext
    exact (hiff (by omega)).mp hend (hgoes j hj _ hnext)
  have hlast : ms.length + 1 < (Position.initial.codesFrom (ms ++ [m]) ++ [c]).length := by
    simp [length_codesFrom]
  intro h
  have hevals := (agree_iff_ends hover (by simp)).mp h ms.length hlast hfirst
  exact (evalEndsAt_iff hover hcode hfirst.1).mp hevals hafter.2

end Agreement

/-- The two lists of a game agree, exactly when the engine evaluates the first
position that is over, or its move is the last of the list. -/
theorem analysesAgree_iff (lib : Chess.GameLibrary) (hover : lib.ReportsBoth)
    (engine : String → Option Evaluation) (moves : List Chess.Move) (hne : moves ≠ []) :
    AnalysesAgree lib engine moves ↔ ∀ i m, moves[i]? = some m → i + 1 < moves.length →
      FirstAt (lib.EndsAt lib.finds lib.start moves) i →
      engine (lib.getFen (lib.afterMove moves i m)) ≠ none := by
  rw [agree_iff_ends hover hne]
  constructor
  · intro h i m hm hi hfirst
    exact (evalEndsAt_iff hover hm hfirst.1).mp (h i hi hfirst)
  · intro h i hi hfirst
    obtain ⟨m, hm, -⟩ := hfirst.1
    exact (evalEndsAt_iff hover hm hfirst.1).mpr (h i m hm hi hfirst)

/-- The rules of chess as such a library. Only the FEN of the starting position
is read. -/
def rulesGames : Chess.GameLibrary where
  toLibrary := rulesLibrary
  sideToMove := fun q : Played => q.position.turn
  setFen _ := Played.initial

theorem reportsBoth_rulesGames : rulesGames.ReportsBoth := by
  intro q
  simp only [rulesGames, rulesLibrary]
  split_ifs <;> simp

def someEvaluation : Evaluation where
  bestmove := ⟨'e', '2', 'e', '4'⟩
  ponder := none
  bestmoveStr := "e4"
  ponderStr := ""
  eval := some 30
  mate := false
  mateCount := 0

/-- 1. f3 e5 2. g4 Qh4#, and a move after the mate. -/
def foolsMate : List Move := [.quiet 53 45, .quiet 12 28, .quiet 54 38]

def afterMate : List Chess.Move :=
  Position.initial.codesFrom (foolsMate ++ [.quiet 3 39]) ++ [kingsPawn]

theorem answered_afterMate_agrees :
    AnalysesAgree rulesGames (fun _ => some someEvaluation) afterMate :=
  (analysesAgree_iff rulesGames reportsBoth_rulesGames _ afterMate (by simp [afterMate])).mpr
    fun _ _ _ _ _ => Option.some_ne_none _

def matedEngine (fen : String) : Option Evaluation :=
  if fen = "rnb1kbnr/pppp1ppp/8/4p3/6Pq/5P2/PPPPP2P/RNBQKBNR w KQkq - 1 3" then none
  else some someEvaluation

/-- The evaluations go on after the mate, and the FENs do not. -/
theorem mate_not_agrees : ¬ AnalysesAgree rulesGames matedEngine afterMate := by
  have hl : Position.initial.legalGame (foolsMate ++ [.quiet 3 39]) := by decide +kernel
  have hr : rulesGames.FollowsRules Eq := rulesLibrary_followsRules
  refine not_agrees_of_over hr reportsBoth_rulesGames hl _ ?_ ?_
  · rintro j hj _ rfl
    have hlt : j + 1 < (foolsMate ++ [Move.quiet 3 39]).length := by simpa using hj
    have hlegal := Position.legal_of_legalGame hl (List.getElem?_eq_getElem hlt)
    rw [List.take_append_of_le_length hj, ← Played.position_initial, ← position_foldl_play]
      at hlegal
    have hcount : ∀ j < 3,
        ((foolsMate.take (j + 1)).foldl Played.play .initial).halfmoves < 100 := by decide
    exact isGameOver_rulesLibrary hlegal (hcount j hj)
  · rintro _ rfl
    have hnone : ((foolsMate.foldl Played.play .initial).play
        (.quiet 3 39)).position.legalMoves = [] :=
      Position.legalMoves_eq_nil (by decide +kernel) (by decide +kernel) (by decide +kernel)
    refine ⟨?_, by decide +kernel⟩
    simp only [rulesGames, rulesLibrary, if_pos hnone]
    split_ifs <;> simp

end SmakChess
