import SmakChess.EngineSession
import SmakChess.EvalLoop

/-! `POST /fen/eval` and `GET /games/eval/{id}`: each request has an engine of its
own, which is started, searched and read, and answers with the evaluations. -/

namespace SmakChess

open Streams

/-! What an answer of the engine says. -/

/-- The score in the last info line. -/
def Answer.score (a : Answer) : Except EngineFault (Option Score) :=
  match a.infos.getLast? with
  | none => .ok none
  | some info => extractEvalFromRegex info

/-- An evaluation by an answer: its best move, the score of its last info line, and its
ponder, unless that has not been read. -/
def Answer.Gives (lib : SanLibrary) (fen : List Char) (a : Answer) (ev : Evaluation) : Prop :=
  ∃ best p q sc, extractBestmoveFromRegex a.bestmove = some (best, q) ∧ (p = none ∨ p = q) ∧
    a.score = .ok sc ∧ ev = (Evaluation.ofMoves lib fen best p).setScore sc

section Answers

variable {lib : SanLibrary} {s : Pipe} {c : Call} {ev : Evaluation} {t : Track}

theorem score_of_infos {info : List Char} (h : c.answer.infos.getLast? = some info) :
    c.answer.score = extractEvalFromRegex info := by
  rw [Answer.score, h]

/-- An evaluation that is taken from the call's own answer is one that the answer gives. -/
theorem gives_of_ownAnswer (h : Leftover s) (ho : OwnAnswer s c)
    (hr : s.result lib c = .ok (some ev)) : c.answer.Gives lib c.fen ev := by
  obtain ⟨line, best, p, info, sc, hline, hb, hinfo, hs, rfl⟩ := naiveEval_eq_some.mp hr
  have hlt : s.unread.length < (s.read c).length := by
    by_contra hle
    exact ho.1 (by omega) ⟨line, info, sc, hline, by simp [hb], hinfo, hs⟩
  obtain ⟨v, hv, hne, hread⟩ := read_of_lt hlt
  have hword := word_of_lastLine h hne hread hline hb
  obtain ⟨ms, m, hlines, hms, hm, -⟩ := markedLines_read h hv hread hword
  have hlast : line = c.answer.lineRead v := by
    rw [lastLine_of_markedLines hlines, hm] at hline
    exact (Option.some.inj hline).symm
  obtain ⟨q, hq, hponder⟩ := extractBestmove_of_take (hlast ▸ hb)
  refine ⟨best, p, q, sc, hq, hponder, ?_, rfl⟩
  rw [lineBefore_of_markedLines hlines] at hinfo
  rcases List.eq_nil_or_concat ms with rfl | ⟨ms', last, rfl⟩
  · -- the line before is one that another command has left
    rw [List.append_nil, getLast?_markedLines] at hinfo
    have hinfos : c.answer.infos = [] := hms.symm
    have hdrop : chars ((s.read c).drop s.unread.length) = v := by
      rw [hread, List.drop_left, chars_mark]
    have hnone := ho.2 hlt hinfos (by rw [hdrop, ← hlast, hb]; simp) info
    cases sc with
    | none => simp [Answer.score, hinfos]
    | some score => exact absurd hs (hnone score hinfo)
  · rw [List.concat_eq_append, ← List.append_assoc, List.getLast?_concat, Option.map_some] at hinfo
    have hinfos : c.answer.infos.getLast? = some info := by
      rw [← hms, List.concat_eq_append, List.map_append, List.map_singleton, List.getLast?_concat]
      exact hinfo
    rw [score_of_infos hinfos, hs]

theorem gives_of_calm (h : Known t s) (hcalm : t.calm = true)
    (hr : s.result lib c = .ok (some ev)) : c.answer.Gives lib c.fen ev :=
  gives_of_ownAnswer h.leftover (ownAnswer_of_quiet (h.quiet hcalm) c) hr

/-- A search that gives an evaluation has been read as far as its best move. -/
theorem hasBestmove_of_result (hr : s.result lib c = .ok (some ev)) :
    hasBestmove (chars (s.read c)) = true := by
  obtain ⟨line, best, p, -, -, hline, hb, -⟩ := naiveEval_eq_some.mp hr
  exact decide_eq_true ((infix_of_extractBestmove hb).trans
    (isInfix_of_mem_getlines (List.mem_of_getLast? hline)))

end Answers

/-! The two endpoints. -/

/-- `chess::Square` of the two characters of its name. -/
def squareOf (file rank : Char) : Chess.Square :=
  ⟨(rank.toNat : Int) - '1'.toNat, (file.toNat : Int) - 'a'.toNat⟩

def UciMove.toMove (m : UciMove) : Chess.Move :=
  .make (squareOf m.fromFile m.fromRank) (squareOf m.toFile m.toRank)

structure EvalDTO where
  id : Option Int
  ply : Option Int
  result : Chess.GameResult
  reason : Chess.GameResultReason
  forcedMate : Bool
  pawnEval : Option Int
  bestmove : String
  ponder : String
  move : Option String
  deriving DecidableEq, Repr

inductive EvalResponse
  | unavailable (message : String)
  | ok (body : List (Option EvalDTO))
  deriving DecidableEq, Repr

/-- The engine of one request: what it writes, and how far each read gets. -/
structure EngineRun where
  greeting : UciAnswer
  sizes : List Nat
  readySizes : List Nat
  newGameSizes : List Nat
  reply : Nat → String → UciCall
  fen_reply : ∀ i fen, (reply i fen).fen = fen.toList

def EngineRun.started (r : EngineRun) : Bool × Pipe :=
  Pipe.initial.startUci r.greeting r.sizes r.readySizes

/-- `unset` is the move that the constructor of an evaluation leaves in `m_ponder`. -/
def evalToDto (lib : Chess.Library) (unset : Chess.Move) (e : GameEvaluation) : EvalDTO where
  id := none
  ply := none
  result := e.res
  reason := e.reason
  forcedMate := e.mate
  pawnEval := e.eval
  bestmove := lib.moveToUci e.bestmove.toMove
  ponder := lib.moveToUci ((e.ponder.map UciMove.toMove).getD unset)
  move := none

namespace Chess.GameLibrary

variable (lib : Chess.GameLibrary) (san : SanLibrary) (unset : Chess.Move)

def getFenEval (r : EngineRun) (fen : String) : Except AnalysisFault EvalResponse :=
  let (ready, s) := r.started
  if ready = false then .ok (.unavailable "Engine could not start. Analysis unavailable.")
  else
    (lib.getEvalsFromFen (fun fen => s.result san (r.reply 0 fen).toCall) fen).map fun e =>
      .ok [e.map fun e => { evalToDto lib.toLibrary unset e with ply := some (plyOfIndex 0) }]

/-- The pipe before move `i` of a game: a search for each legal move up to there. -/
def pipeAt (r : EngineRun) (moves : List Chess.Move) : Nat → Pipe
  | 0 => r.started.2.newGame r.newGameSizes
  | i + 1 =>
    match moves[i]? with
    | none => pipeAt r moves i
    | some m =>
      if lib.finds (lib.reached lib.finds lib.start moves i) m then
        (pipeAt r moves i).call (r.reply i (lib.getFen (lib.afterMove moves i m))).toCall
      else pipeAt r moves i

def gameEngine (r : EngineRun) (moves : List Chess.Move) (i : Nat) : EngineCall := fun fen =>
  (lib.pipeAt r moves i).result san (r.reply i fen).toCall

def getGameEval (r : EngineRun) (id : Int) (gameStatus movesStatus : Nat) (rows : List MoveDTO) :
    Except AnalysisFault EvalResponse :=
  if gameStatus ≠ 200 then .ok (.unavailable "Unable to retrieve game from database.")
  else if movesStatus ≠ 200 then .ok (.unavailable "Unable to retrieve moves from database.")
  else if r.started.1 = false then
    .ok (.unavailable "Engine could not start. Analysis unavailable.")
  else
    let chessMoves := rows.map MoveDTO.toMove
    (lib.getEvalsFromGame (lib.gameEngine san r chessMoves) chessMoves).map fun evals =>
      .ok (evals.mapIdx fun idx e => e.map fun e =>
        { evalToDto lib.toLibrary unset e with
          ply := some (plyOfIndex idx)
          id := some id
          move := chessMoves[idx]?.map lib.moveToUci })

section Requests

variable {lib : Chess.GameLibrary} {san : SanLibrary} {unset : Chess.Move} {r : EngineRun}
  {moves : List Chess.Move} {rows : List MoveDTO} {body : List (Option EvalDTO)} {dto : EvalDTO}
  {fen : String} {id : Int} {gameStatus movesStatus i : Nat}

/-- No search has been given up when the engine has just been started. -/
theorem known_started (r : EngineRun) : ∃ t : Track, t.calm = true ∧ Known t r.started.2 := by
  have h : Known _ (Pipe.initial.apply (.startUci r.greeting r.sizes r.readySizes)) :=
    known_apply known_initial
  refine ⟨_, ?_, h⟩
  rw [Track.step]
  split <;> rfl

theorem getFenEval_eq_ok (h : lib.getFenEval san unset r fen = .ok (.ok body)) :
    ∃ ev, r.started.2.result san (r.reply 0 fen).toCall = .ok (some ev) ∧
      body = [some { evalToDto lib.toLibrary unset (ev.withResult
        (lib.isGameOver (lib.setFen fen)) (lib.sideToMove (lib.setFen fen))) with ply := some 1 }] := by
  simp only [getFenEval, getEvalsFromFen] at h
  split_ifs at h with hready
  · cases h
  · split at h
    next => cases h
    next => cases h
    next ev hev =>
      obtain rfl := EvalResponse.ok.inj (Except.ok.inj h)
      exact ⟨ev, hev, rfl⟩

/-- The pipe before a move holds nothing that could be taken for its answer, when every
legal move before it has been evaluated. -/
theorem known_pipeAt (san : SanLibrary) (h : ∀ j < i, ∀ m, moves[j]? = some m →
    lib.finds (lib.reached lib.finds lib.start moves j) m = true →
      ∃ ev, lib.gameEngine san r moves j (lib.getFen (lib.afterMove moves j m)) = .ok (some ev)) :
    ∃ t : Track, t.calm = true ∧ Known t (lib.pipeAt r moves i) := by
  induction i with
  | zero =>
    obtain ⟨t, hcalm, hs⟩ := known_started r
    refine ⟨_, ?_, known_checkEngineIsready hs⟩
    rw [Track.checked, hcalm, Bool.true_or]
  | succ i ih =>
    obtain ⟨t, hcalm, hs⟩ := ih fun j hj => h j (by omega)
    rw [pipeAt]
    cases hm : moves[i]? with
    | none => exact ⟨t, hcalm, hs⟩
    | some m =>
      dsimp only
      split
      next hf =>
        obtain ⟨ev, hev⟩ := h i (by omega) m hm hf
        refine ⟨_, ?_, known_search hs _⟩
        rw [hcalm, Bool.true_and]
        exact hasBestmove_of_result hev
      next => exact ⟨t, hcalm, hs⟩

theorem getGameEval_eq_ok (h : lib.getGameEval san unset r id gameStatus movesStatus rows = .ok (.ok body)) :
    ∃ evals, rows.map MoveDTO.toMove ≠ [] ∧
      lib.getEvalsFromGame (lib.gameEngine san r (rows.map MoveDTO.toMove)) (rows.map MoveDTO.toMove) =
        .ok evals ∧
      body = evals.mapIdx fun idx e => e.map fun e =>
        { evalToDto lib.toLibrary unset e with
          ply := some (plyOfIndex idx)
          id := some id
          move := (rows.map MoveDTO.toMove)[idx]?.map lib.moveToUci } := by
  simp only [getGameEval] at h
  split_ifs at h
  · cases h
  · cases h
  · cases h
  · cases hevals : lib.getEvalsFromGame (lib.gameEngine san r (rows.map MoveDTO.toMove))
        (rows.map MoveDTO.toMove) with
    | error f =>
      rw [hevals] at h
      cases h
    | ok evals =>
      rw [hevals] at h
      refine ⟨evals, fun hnil => ?_, rfl, (EvalResponse.ok.inj (Except.ok.inj h)).symm⟩
      rw [hnil] at hevals
      cases hevals

end Requests

end Chess.GameLibrary

section Own

open Chess.GameLibrary

def searchCall (fen : String) : UciCall := { shortCall [100] with fen := fen.toList }

/-- An engine that gives the same answer to every search. -/
def steadyRun : EngineRun where
  greeting := shortGreeting
  sizes := [100]
  readySizes := [100]
  newGameSizes := [100]
  reply _ := searchCall
  fen_reply _ _ := rfl

def unsetMove : Chess.Move := .make ⟨0, 0⟩ ⟨0, 0⟩

/-- The score of the answer is 5, for the side to move. -/
def steadyDto : EvalDTO where
  id := none
  ply := some 1
  result := .none
  reason := .none
  forcedMate := false
  pawnEval := some 5
  bestmove := "e2e4"
  ponder := "a1a1"
  move := none

def openingFen : String := "rnbqkbnr/pppppppp/8/8/8/8/PPPPPPPP/RNBQKBNR w KQkq - 0 1"

def openingRows : List MoveDTO :=
  (Position.initial.storedFrom 1 [.quiet 52 36, .quiet 12 28]).map StoredMove.toDto

def steadyGameDto (ply pawnEval : Int) (move : String) : EvalDTO :=
  { steadyDto with id := some 7, ply := some ply, pawnEval := some pawnEval, move := some move }

end Own

end SmakChess
