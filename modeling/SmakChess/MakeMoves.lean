import SmakChess.EvalLoop
import SmakChess.FenReading

/-! `make_moves`: the position it tells the engine, and the state it leaves. -/

namespace SmakChess

/-- The library with what only `make_moves` needs. -/
structure Chess.EngineLibrary extends Chess.GameLibrary where
  unmakeMove : Board → Chess.Move → Board

structure PositionCommand where
  fen : String
  moves : List String
  deriving DecidableEq, Repr

def PositionCommand.text (cmd : PositionCommand) : String :=
  "\n position fen " ++ cmd.fen ++ " moves " ++ " ".intercalate cmd.moves ++ "\n"

theorem PositionCommand.text_size_pos (cmd : PositionCommand) : 0 < cmd.text.utf8ByteSize := by
  have hword : "\n position fen ".utf8ByteSize = 15 := rfl
  unfold PositionCommand.text
  generalize "\n position fen " = word at hword
  generalize cmd.fen = fen
  rw [String.append_assoc, String.append_assoc, String.append_assoc, String.utf8ByteSize_append, hword]
  exact Nat.lt_of_lt_of_le (by decide) (Nat.le_add_right _ _)

/-- `m_eval`, as far as it has been set. -/
structure PositionEval where
  eval : Option Int
  bestmove : Option UciMove
  ponder : Option UciMove
  bestmoveStr : String
  ponderStr : String
  colorToMove : Option Color
  mate : Bool
  mateCount : Nat
  hasMate : Option Color
  matePlayed : Bool
  deriving DecidableEq, Repr

namespace PositionEval

def empty : PositionEval := ⟨none, none, none, "", "", none, false, 0, none, false⟩

def ofEvaluation (ev : Evaluation) : PositionEval :=
  { empty with
    eval := ev.eval
    bestmove := some ev.bestmove
    ponder := ev.ponder
    bestmoveStr := ev.bestmoveStr
    ponderStr := ev.ponderStr
    mate := ev.mate
    mateCount := ev.mateCount }

/-- A mate only sets the count. -/
def setScore (ev : PositionEval) : Option Score → PositionEval
  | none => ev
  | some (.centipawns x) => { ev with eval := some x }
  | some (.mate count) => { ev with mateCount := count }

def setMoves (ev : PositionEval) : Option (UciMove × Option UciMove) → PositionEval
  | none => ev
  | some (best, none) => { ev with bestmove := some best }
  | some (best, some p) => { ev with bestmove := some best, ponder := some p }

/-- The move whose bits are all zero. -/
def noMove : UciMove := ⟨'a', '1', 'a', '1'⟩

def update (ev : PositionEval) (side : Color) (isMate : Bool) : PositionEval :=
  { ev with
    colorToMove := some side
    ponder := if isMate then some noMove else ev.ponder
    mate := isMate
    hasMate := some side }

end PositionEval

/-- What `make_moves` reads and writes of an `EngineWhisperer`. -/
structure EngineState (lib : Chess.EngineLibrary) where
  board : lib.Board
  currentPositionFen : String
  eval : PositionEval

namespace Chess.EngineLibrary

variable (lib : Chess.EngineLibrary)

/-- The index of the first illegal move, `none` for the value -1. -/
def validateMoves : lib.Board → List Chess.Move → Option Nat
  | _, [] => none
  | b, m :: ms =>
    if lib.finds b m then (validateMoves (lib.makeMove b m) ms).map (· + 1) else some 0

def playAll (b : lib.Board) (moves : List Chess.Move) : lib.Board := moves.foldl lib.makeMove b

def unmakeAll (b : lib.Board) (moves : List Chess.Move) : lib.Board :=
  moves.reverse.foldl lib.unmakeMove b

def createPositionCommand (fen : String) (moves : List Chess.Move) : PositionCommand :=
  ⟨fen, moves.map lib.moveToUci⟩

/-- The command for legal moves. The FEN in it is that of the position after them. -/
def commandFor (b : lib.Board) (moves : List Chess.Move) : PositionCommand :=
  lib.createPositionCommand (lib.getFen (lib.playAll b moves)) moves

/-- What the engine is told when all moves are legal, and the state then. -/
def told (st : EngineState lib) (moves : List Chess.Move) :
    Option (EngineState lib × PositionCommand) :=
  if lib.validateMoves st.board moves = none then
    some ({ st with board := lib.playAll st.board moves }, lib.commandFor st.board moves)
  else none

/-- The rest of `make_moves`, after its read. -/
def takeAnswer (st : EngineState lib) (read : List Char) :
    Except EngineFault (Bool × EngineState lib) :=
  match lineBefore read with
  | none => .error .lines
  | some info =>
    match extractEvalFromRegex info with
    | .error f => .error f
    | .ok score =>
      let ev := st.eval.setScore score
      let isOver := lib.isGameOver st.board
      if isOver.2 ≠ .none then
        .ok (true, { st with
          eval := if isOver.1 = .checkmate then { ev with matePlayed := true } else ev })
      else
        let isMate := match score with
          | some (.mate _) => true
          | _ => false
        let ev := ev.setMoves ((lastLine read).bind extractBestmoveFromRegex)
        .ok (true, { st with eval := ev.update (lib.sideToMove st.board) isMate })

/-- `written` is how many bytes of the position command are written, `read` what
is read after `go`, and `naive` stands for `naive_eval_from_position`. -/
def makeMoves (naive : EngineCall) (written : Nat) (read : List Char) (st : EngineState lib)
    (moves : List Chess.Move) : Except EngineFault (Bool × EngineState lib) :=
  match lib.told st moves with
  | none =>
    match naive (lib.getFen (lib.playAll st.board moves)) with
    | .error f => .error f
    | .ok none => .ok (false, { st with eval := .empty })
    | .ok (some ev) => .ok (true, { st with eval := .ofEvaluation ev })
  | some (st, cmd) =>
    if written ≠ cmd.text.utf8ByteSize then
      .ok (false, { st with board := lib.unmakeAll st.board moves })
    else
      let st := { st with currentPositionFen := lib.getFen st.board }
      if read = [] then .ok (false, st) else lib.takeAnswer st read

/-! What it should do. -/

def LegalFrom : lib.Board → List Chess.Move → Prop
  | _, [] => True
  | b, m :: ms => lib.isLegal b m = true ∧ LegalFrom (lib.makeMove b m) ms

/-- A UCI move is played when it is the name of a legal one. -/
def playUci (b : lib.Board) (name : String) : Option lib.Board :=
  ((lib.legalmoves b .all).find? fun m => lib.moveToUci m == name).map (lib.makeMove b)

def Describes (cmd : PositionCommand) (b : lib.Board) : Prop :=
  ∃ b₀, lib.getFen b₀ = cmd.fen ∧ cmd.moves.foldlM lib.playUci b₀ = some b

/-- The command describes the position after the moves, which the board holds. -/
def ToldPlayed (st : EngineState lib) (moves : List Chess.Move) : Prop :=
  ∃ st' cmd b, lib.told st moves = some (st', cmd) ∧ lib.Describes cmd b ∧
    lib.getFen b = lib.getFen st'.board ∧ st'.board = lib.playAll st.board moves

/-- What a failed call leaves, and what a successful one has played. -/
def Atomic (naive : EngineCall) (written : Nat) (read : List Char) (st : EngineState lib)
    (moves : List Chess.Move) : Prop :=
  ∀ r st', lib.makeMoves naive written read st moves = .ok (r, st') →
    (r = false → st'.board = st.board ∧ st'.currentPositionFen = st.currentPositionFen) ∧
    (r = true → lib.LegalFrom st.board moves → st'.board = lib.playAll st.board moves)

/-- A legal move changes the side to move, and counts as one ply. -/
def CountsPlies (plies : lib.Board → Nat) : Prop :=
  ∀ b m, lib.isLegal b m = true →
    lib.sideToMove (lib.makeMove b m) = (lib.sideToMove b).other ∧
      plies (lib.makeMove b m) = plies b + 1

/-- The side to move and the move number stand in the FEN. -/
def FenTellsPly (plies : lib.Board → Nat) : Prop :=
  ∀ b b', lib.getFen b = lib.getFen b' →
    lib.sideToMove b = lib.sideToMove b' ∧ plies b / 2 = plies b' / 2

def Unmakes : Prop :=
  ∀ b m, lib.isLegal b m = true → lib.unmakeMove (lib.makeMove b m) m = b

variable {lib} {plies : lib.Board → Nat} {b b' : lib.Board} {ms moves : List Chess.Move}
  {names : List String} {st : EngineState lib}

theorem validateMoves_eq_none (hgen : lib.GeneratesByPiece) :
    lib.validateMoves b ms = none ↔ lib.LegalFrom b ms := by
  induction ms generalizing b with
  | nil => simp [validateMoves, LegalFrom]
  | cons m ms ih =>
    have hfinds : lib.finds b m = lib.isLegal b m := by
      rw [Chess.Library.finds_eq_isLegal hgen]
    by_cases hm : lib.isLegal b m = true <;> simp [validateMoves, LegalFrom, hfinds, hm, ih]

theorem told_of_legal (hgen : lib.GeneratesByPiece) (hl : lib.LegalFrom st.board moves) :
    lib.told st moves =
      some ({ st with board := lib.playAll st.board moves }, lib.commandFor st.board moves) :=
  if_pos ((validateMoves_eq_none hgen).mpr hl)

theorem told_of_not_legal (hgen : lib.GeneratesByPiece) (hl : ¬ lib.LegalFrom st.board moves) :
    lib.told st moves = none :=
  if_neg fun h => hl ((validateMoves_eq_none hgen).mp h)

/-! Plies. -/

theorem plies_playAll (hplies : lib.CountsPlies plies) (hl : lib.LegalFrom b ms) :
    plies (lib.playAll b ms) = plies b + ms.length := by
  induction ms generalizing b with
  | nil => rfl
  | cons m ms ih =>
    have hrest := ih hl.2
    rw [(hplies b m hl.1).2] at hrest
    rw [playAll, List.foldl_cons, List.length_cons]
    rw [playAll] at hrest
    omega

def flips (n : Nat) (c : Color) : Color := if n % 2 = 0 then c else c.other

theorem plies_playUci (hplies : lib.CountsPlies plies)
    (h : names.foldlM lib.playUci b = some b') :
    lib.sideToMove b' = flips names.length (lib.sideToMove b) ∧
      plies b' = plies b + names.length := by
  induction names generalizing b with
  | nil =>
    obtain rfl : b = b' := by simpa using h
    exact ⟨rfl, rfl⟩
  | cons t names ih =>
    rw [List.foldlM_cons] at h
    obtain ⟨b₁, hb₁, hrest⟩ := Option.bind_eq_some_iff.mp h
    obtain ⟨m, hm, rfl⟩ := Option.map_eq_some_iff.mp hb₁
    have hlegal : lib.isLegal b m = true :=
      List.contains_iff_mem.mpr (List.mem_of_find?_eq_some hm)
    obtain ⟨hside, hply⟩ := hplies b m hlegal
    obtain ⟨hside', hply'⟩ := ih hrest
    rw [hside] at hside'
    rw [hply] at hply'
    refine ⟨?_, by rw [List.length_cons]; omega⟩
    rw [hside', List.length_cons]
    unfold flips
    split_ifs <;> first | omega | cases lib.sideToMove b <;> rfl

theorem names_eq_nil (hplies : lib.CountsPlies plies) (hfen : lib.FenTellsPly plies)
    {b₀ : lib.Board} (hstart : lib.getFen b₀ = lib.getFen b)
    (hplay : names.foldlM lib.playUci b₀ = some b') (hend : lib.getFen b' = lib.getFen b) :
    names = [] := by
  obtain ⟨hside₀, hply₀⟩ := hfen b₀ b hstart
  obtain ⟨hside', hply'⟩ := hfen b' b hend
  obtain ⟨hside, hply⟩ := plies_playUci hplies hplay
  have heven : names.length % 2 = 0 := by
    by_contra hodd
    rw [hside', hside₀, flips, if_neg hodd] at hside
    cases hb : lib.sideToMove b <;> rw [hb] at hside <;> cases hside
  have hlen : names.length = 0 := by omega
  exact List.length_eq_zero_iff.mp hlen

/-- The position that the command starts from has the moves already. -/
theorem eq_nil_of_toldPlayed (hgen : lib.GeneratesByPiece) (hplies : lib.CountsPlies plies)
    (hfen : lib.FenTellsPly plies) (hl : lib.LegalFrom st.board moves)
    (h : lib.ToldPlayed st moves) : moves = [] := by
  obtain ⟨st', cmd, b, h, ⟨b₀, hstart, hplay⟩, hend, -⟩ := h
  rw [told_of_legal hgen hl] at h
  obtain ⟨rfl, rfl⟩ := Prod.mk.inj (Option.some.inj h)
  exact List.map_eq_nil_iff.mp (names_eq_nil hplies hfen hstart hplay hend)

theorem toldPlayed_nil (hgen : lib.GeneratesByPiece) (st : EngineState lib) :
    lib.ToldPlayed st [] :=
  ⟨_, _, st.board, told_of_legal hgen trivial, ⟨st.board, rfl, rfl⟩, rfl, rfl⟩

/-! Undoing. -/

theorem unmakeAll_playAll (hun : lib.Unmakes) (hl : lib.LegalFrom b ms) :
    lib.unmakeAll (lib.playAll b ms) ms = b := by
  induction ms generalizing b with
  | nil => rfl
  | cons m ms ih =>
    have hrest := ih hl.2
    rw [unmakeAll, playAll] at hrest
    rw [unmakeAll, playAll, List.foldl_cons, List.reverse_cons, List.foldl_append, hrest]
    exact hun b m hl.1

theorem playAll_eq_self (hplies : lib.CountsPlies plies) (hl : lib.LegalFrom b ms) :
    lib.playAll b ms = b ↔ ms = [] := by
  constructor
  · intro h
    have hply := plies_playAll hplies hl
    rw [h] at hply
    exact List.length_eq_zero_iff.mp (by omega)
  · rintro rfl
    rfl

theorem board_takeAnswer {read : List Char} {r : Bool} {st' : EngineState lib}
    (h : lib.takeAnswer st read = .ok (r, st')) : r = true ∧ st'.board = st.board := by
  unfold takeAnswer at h
  cases hinfo : lineBefore read with
  | none => simp [hinfo] at h
  | some info =>
    cases hs : extractEvalFromRegex info with
    | error f => simp [hinfo, hs] at h
    | ok score =>
      simp only [hinfo, hs] at h
      split_ifs at h <;> obtain ⟨rfl, rfl⟩ := Prod.mk.inj (Except.ok.inj h) <;> exact ⟨rfl, rfl⟩

theorem atomic_of_not_legal {naive : EngineCall} {written : Nat} {read : List Char}
    (hgen : lib.GeneratesByPiece) (hl : ¬ lib.LegalFrom st.board moves) :
    lib.Atomic naive written read st moves := by
  intro r st' h
  rw [makeMoves, told_of_not_legal hgen hl] at h
  refine ⟨fun _ => ?_, fun _ hlegal => absurd hlegal hl⟩
  cases hev : naive (lib.getFen (lib.playAll st.board moves)) with
  | error f => simp [hev] at h
  | ok ev =>
    cases ev <;>
    · simp only [hev] at h
      obtain ⟨rfl, rfl⟩ := Prod.mk.inj (Except.ok.inj h)
      exact ⟨rfl, rfl⟩

theorem atomic_of_legal {naive : EngineCall} {written : Nat} {read : List Char}
    (hgen : lib.GeneratesByPiece) (hplies : lib.CountsPlies plies) (hun : lib.Unmakes)
    (hl : lib.LegalFrom st.board moves) : lib.Atomic naive written read st moves ↔
      (written = (lib.commandFor st.board moves).text.utf8ByteSize → read = [] →
        moves = [] ∧ st.currentPositionFen = lib.getFen st.board) := by
  have hmake := told_of_legal hgen hl
  by_cases hwrite : written = (lib.commandFor st.board moves).text.utf8ByteSize
  · by_cases hread : read = []
    · -- the failure that undoes nothing
      have hout : lib.makeMoves naive written read st moves = .ok (false,
          { st with
            board := lib.playAll st.board moves
            currentPositionFen := lib.getFen (lib.playAll st.board moves) }) := by
        simp only [makeMoves, hmake]
        rw [if_neg (not_not.mpr hwrite), if_pos hread]
      constructor
      · intro h _ _
        obtain ⟨hboard, hfen⟩ := (h false _ hout).1 rfl
        have hboard : lib.playAll st.board moves = st.board := hboard
        have hfen : lib.getFen (lib.playAll st.board moves) = st.currentPositionFen := hfen
        rw [hboard] at hfen
        exact ⟨(playAll_eq_self hplies hl).mp hboard, hfen.symm⟩
      · intro h r st' hr
        obtain ⟨rfl, hfen⟩ := h hwrite hread
        rw [hout] at hr
        obtain ⟨rfl, rfl⟩ := Prod.mk.inj (Except.ok.inj hr)
        exact ⟨fun _ => ⟨rfl, hfen.symm⟩, nofun⟩
    · refine iff_of_true (fun r st' hr => ?_) fun _ h => absurd h hread
      simp only [makeMoves, hmake] at hr
      rw [if_neg (not_not.mpr hwrite), if_neg hread] at hr
      obtain ⟨rfl, hboard⟩ := board_takeAnswer hr
      exact ⟨nofun, fun _ _ => hboard⟩
  · refine iff_of_true (fun r st' hr => ?_) fun h => absurd h hwrite
    simp only [makeMoves, hmake] at hr
    rw [if_pos hwrite] at hr
    obtain ⟨rfl, rfl⟩ := Prod.mk.inj (Except.ok.inj hr)
    exact ⟨fun _ => ⟨unmakeAll_playAll hun hl, rfl⟩, nofun⟩

end Chess.EngineLibrary

/-- The engine is told the position that the board holds, exactly when there are
no moves: it plays them again after a FEN that has them. -/
theorem toldPlayed_iff_no_moves (lib : Chess.EngineLibrary) (hgen : lib.GeneratesByPiece)
    (plies : lib.Board → Nat) (hplies : lib.CountsPlies plies) (hfen : lib.FenTellsPly plies)
    (st : EngineState lib) (moves : List Chess.Move) (hl : lib.LegalFrom st.board moves) :
    lib.ToldPlayed st moves ↔ moves = [] := by
  constructor
  · exact Chess.EngineLibrary.eq_nil_of_toldPlayed hgen hplies hfen hl
  · rintro rfl
    exact Chess.EngineLibrary.toldPlayed_nil hgen st

/-- A call is atomic, unless its moves are legal, the whole command is written,
and nothing is read: then the moves stay on the board. -/
theorem atomic_iff_answered (lib : Chess.EngineLibrary) (hgen : lib.GeneratesByPiece)
    (plies : lib.Board → Nat) (hplies : lib.CountsPlies plies) (hun : lib.Unmakes)
    (naive : EngineCall) (written : Nat) (read : List Char) (st : EngineState lib)
    (moves : List Chess.Move) : lib.Atomic naive written read st moves ↔
      (lib.LegalFrom st.board moves →
        written = (lib.commandFor st.board moves).text.utf8ByteSize → read = [] →
          moves = [] ∧ st.currentPositionFen = lib.getFen st.board) := by
  by_cases hl : lib.LegalFrom st.board moves
  · rw [Chess.EngineLibrary.atomic_of_legal hgen hplies hun hl]
    exact ⟨fun h _ => h, fun h => h hl⟩
  · exact iff_of_true (Chess.EngineLibrary.atomic_of_not_legal hgen hl) fun h => absurd h hl

/-- The rules of chess as such a library, whose boards keep the positions
before. It plays promotions to queens only. -/
def rulesEngine : Chess.EngineLibrary where
  Board := Played × List Played
  start := (.initial, [])
  pieceAt b := rulesLibrary.pieceAt b.1
  legalmoves b g := (rulesLibrary.legalmoves b.1 g).filter fun c =>
    (b.1.position.withCode c).isSome
  makeMove b c := (rulesLibrary.makeMove b.1 c, b.1 :: b.2)
  makeNullMove b := (rulesLibrary.makeNullMove b.1, b.1 :: b.2)
  getFen b := rulesLibrary.getFen b.1
  isGameOver b := rulesLibrary.isGameOver b.1
  moveToUci := rulesLibrary.moveToUci
  sideToMove b := b.1.position.turn
  setFen fen := (rulesGames.setFen fen, [])
  unmakeMove b _ :=
    match b.2 with
    | [] => b
    | q :: qs => (q, qs)

def pliesPlayed (b : rulesEngine.Board) : Nat := b.1.plies

theorem mem_legalmoves_rulesEngine {b : rulesEngine.Board} {g : Chess.PieceGenType}
    {c : Chess.Move} : c ∈ rulesEngine.legalmoves b g ↔
      c ∈ rulesLibrary.legalmoves b.1 g ∧ (b.1.position.withCode c).isSome = true :=
  List.mem_filter

theorem generatesByPiece_rulesEngine : rulesEngine.GeneratesByPiece := by
  intro b g c
  have h := generatesByPiece_rulesLibrary b.1 g c
  rw [mem_legalmoves_rulesEngine, mem_legalmoves_rulesEngine, h]
  exact and_right_comm

theorem unmakes_rulesEngine : rulesEngine.Unmakes := fun _ _ _ => rfl

theorem countsPlies_rulesEngine : rulesEngine.CountsPlies pliesPlayed := by
  intro b c hc
  have hmem := mem_legalmoves_rulesEngine.mp (List.contains_iff_mem.mp hc)
  obtain ⟨m, hm⟩ := Option.isSome_iff_exists.mp hmem.2
  have hplay : rulesLibrary.makeMove b.1 c = b.1.play m := by
    simp only [rulesLibrary, hm]
  simp only [rulesEngine, pliesPlayed, hplay]
  exact ⟨rfl, rfl⟩

theorem fenTellsPly_rulesEngine : rulesEngine.FenTellsPly pliesPlayed := by
  intro b b' h
  have hfen := rulesLibrary_followsRules.getFen b.1 b.1 rfl
  have hfen' := rulesLibrary_followsRules.getFen b'.1 b'.1 rfl
  have h : rulesLibrary.getFen b.1 = rulesLibrary.getFen b'.1 := h
  rw [h] at hfen
  obtain ⟨-, hside, hmove⟩ := eq_of_isFen hfen hfen'
  exact ⟨hside, hmove⟩

def newEngine : EngineState rulesEngine := ⟨rulesEngine.start, "", .empty⟩

theorem kingsPawn_legalFrom : rulesEngine.LegalFrom newEngine.board [kingsPawn] := by
  have hlegal : Position.initial.legal (.quiet 52 36) := by decide +kernel
  have hcode : kingsPawn = Position.initial.code (.quiet 52 36) := by decide +kernel
  refine ⟨List.contains_iff_mem.mpr (mem_legalmoves_rulesEngine.mpr ⟨?_, ?_⟩), trivial⟩
  · exact (rulesLibrary_followsRules.legalmoves .initial .initial .all kingsPawn rfl).mpr
      ⟨_, hlegal, rfl, .queen, by decide, hcode⟩
  · rw [hcode]
    exact Option.isSome_iff_exists.mpr ⟨_, Position.withCode_code hlegal⟩

theorem no_moves_toldPlayed : rulesEngine.ToldPlayed newEngine [] :=
  (toldPlayed_iff_no_moves rulesEngine generatesByPiece_rulesEngine pliesPlayed
    countsPlies_rulesEngine fenTellsPly_rulesEngine newEngine [] trivial).mpr rfl

theorem kingsPawn_not_toldPlayed :
    rulesEngine.LegalFrom newEngine.board [kingsPawn] ∧
      ¬ rulesEngine.ToldPlayed newEngine [kingsPawn] := by
  refine ⟨kingsPawn_legalFrom, fun h => ?_⟩
  have hnil := Chess.EngineLibrary.eq_nil_of_toldPlayed generatesByPiece_rulesEngine
    countsPlies_rulesEngine fenTellsPly_rulesEngine kingsPawn_legalFrom h
  cases hnil

theorem unwritten_atomic :
    rulesEngine.Atomic (fun _ => .ok none) 0 [] newEngine [kingsPawn] :=
  (atomic_iff_answered rulesEngine generatesByPiece_rulesEngine pliesPlayed
    countsPlies_rulesEngine unmakes_rulesEngine _ 0 [] newEngine [kingsPawn]).mpr fun _ h =>
      absurd h (PositionCommand.text_size_pos _).ne

theorem unanswered_not_atomic :
    ¬ rulesEngine.Atomic (fun _ => .ok none)
      (rulesEngine.commandFor newEngine.board [kingsPawn]).text.utf8ByteSize [] newEngine
      [kingsPawn] := by
  intro h
  obtain ⟨hnil, -⟩ := (Chess.EngineLibrary.atomic_of_legal generatesByPiece_rulesEngine
    countsPlies_rulesEngine unmakes_rulesEngine kingsPawn_legalFrom).mp h rfl rfl
  cases hnil

end SmakChess
