import SmakChess.ChessHpp
import Mathlib.Data.List.InsertIdx
import Mathlib.Logic.Function.Iterate
import Mathlib.Algebra.Order.Ring.Nat

/-! `GET /games/fen/{id}`: the rows of the database, the moves made of them and
the positions the chess library gives for these. -/

namespace SmakChess

/-- The columns of `moves` that the controller is sent. No column is null. -/
structure StoredMove where
  plyNumber : Int
  moveType : Chess.MoveType
  fromSquare : Int
  toSquare : Int
  deriving DecidableEq, Repr

/-- The moves of one game. The ply number is part of the table's key. -/
structure StoredGame where
  moves : List StoredMove
  distinct : (moves.map StoredMove.plyNumber).Nodup

/-- What an unordered query may answer. -/
def StoredGame.Rows (g : StoredGame) (rows : List StoredMove) : Prop :=
  rows.Perm g.moves

structure MoveDTO where
  plyNumber : Option Int
  moveType : Option Chess.MoveType
  fromSquare : Option Int
  toSquare : Option Int
  deriving DecidableEq, Repr

def StoredMove.toDto (m : StoredMove) : MoveDTO :=
  ⟨some m.plyNumber, some m.moveType, some m.fromSquare, some m.toSquare⟩

def intToSquare (sq : Int) : Chess.Square := ⟨7 - sq / 8, sq % 8⟩

def MoveDTO.toMove (d : MoveDTO) : Chess.Move :=
  .make (intToSquare (d.fromSquare.getD 0)) (intToSquare (d.toSquare.getD 0))

def StoredMove.toMove (m : StoredMove) : Chess.Move := m.toDto.toMove

structure FenDTO where
  id : Int
  ply : Int
  fenString : String
  move : Option String
  deriving DecidableEq, Repr

inductive FenResponse
  | unavailable (message : String)
  | internalError
  | ok (body : List (Option FenDTO))
  deriving DecidableEq, Repr

def pieceToPiecegen : Chess.PieceType → Chess.PieceGenType
  | some k => .only k
  | none => .all

/-- `dto->ply = idx + 1`, a field of 32 bits. -/
def plyOfIndex (idx : Nat) : Int := ((idx : Int) + 1).bmod (2 ^ 32)

namespace Chess.Library

variable (lib : Chess.Library)

/-- `std::find` in the moves of the piece on the move's first square. -/
def finds (b : lib.Board) (m : Chess.Move) : Bool :=
  (lib.legalmoves b (pieceToPiecegen (lib.pieceAt b m.source))).contains m

/-- The loop of `getFenListFromGame`. -/
def fensFrom (b : lib.Board) : List Chess.Move → List (Option String)
  | [] => []
  | m :: ms =>
    if lib.finds b m then
      let b := lib.makeMove b m
      some (lib.getFen b) ::
        if (lib.isGameOver b).1 ≠ .none then [] else fensFrom b ms
    else none :: fensFrom (lib.makeNullMove b) ms

/-- `none` when the first move, which the log asks for, is not there. -/
def getFenListFromGame (moves : List Chess.Move) : Option (List (Option String)) :=
  moves.head?.map fun _ => lib.fensFrom lib.start moves

def fenDtos (id : Int) (moves : List Chess.Move) (fens : List (Option String)) :
    List (Option FenDTO) :=
  fens.mapIdx fun idx e => e.map fun fen =>
    ⟨id, plyOfIndex idx, fen, moves[idx]?.map lib.moveToUci⟩

/-- `rows` is the body of the second answer, `started` the answer of
`start_uci`. -/
def getFenList (id : Int) (gameStatus movesStatus : Nat) (rows : List MoveDTO)
    (started : Bool) : FenResponse :=
  if gameStatus ≠ 200 then .unavailable "Unable to retrieve game from database."
  else if movesStatus ≠ 200 then .unavailable "Unable to retrieve moves from database."
  else if started = false then
    .unavailable "Engine could not start. Analysis unavailable."
  else
    let chessMoves := rows.map MoveDTO.toMove
    match lib.getFenListFromGame chessMoves with
    | none => .internalError
    | some fens => .ok (lib.fenDtos id chessMoves fens)

/-- The answer when both fetches and the engine's start succeed. -/
def fenResponse (id : Int) (rows : List StoredMove) : FenResponse :=
  lib.getFenList id 200 200 (rows.map StoredMove.toDto) true

theorem fenResponse_cases (id : Int) (rows : List StoredMove) :
    rows = [] ∧ lib.fenResponse id rows = .internalError ∨
      rows ≠ [] ∧ lib.fenResponse id rows =
        .ok (lib.fenDtos id (rows.map StoredMove.toMove)
          (lib.fensFrom lib.start (rows.map StoredMove.toMove))) := by
  cases rows with
  | nil => exact Or.inl ⟨rfl, rfl⟩
  | cons m ms =>
    refine Or.inr ⟨by simp, ?_⟩
    simp only [fenResponse, getFenList, getFenListFromGame, List.map_map]
    rfl

variable {lib}

theorem fenDtos_getElem? {id : Int} {moves : List Chess.Move} {fens : List (Option String)}
    {i : Nat} {dto : FenDTO} :
    (lib.fenDtos id moves fens)[i]? = some (some dto) ↔
      ∃ fen, fens[i]? = some (some fen) ∧
        dto = ⟨id, plyOfIndex i, fen, moves[i]?.map lib.moveToUci⟩ := by
  simp only [fenDtos, List.getElem?_mapIdx, Option.map_eq_some_iff]
  constructor
  · rintro ⟨e, he, fen, rfl, rfl⟩
    exact ⟨fen, he, rfl⟩
  · rintro ⟨fen, he, rfl⟩
    exact ⟨some fen, he, fen, rfl, rfl⟩

theorem fensFrom_of_finds {b : lib.Board} {m : Chess.Move} (ms : List Chess.Move)
    (h : lib.finds b m = true) :
    lib.fensFrom b (m :: ms) = some (lib.getFen (lib.makeMove b m)) ::
      if (lib.isGameOver (lib.makeMove b m)).1 = .none then
        lib.fensFrom (lib.makeMove b m) ms
      else [] := by
  simp [fensFrom, h]

theorem length_fensFrom_le (b : lib.Board) (ms : List Chess.Move) :
    (lib.fensFrom b ms).length ≤ ms.length := by
  induction ms generalizing b with
  | nil => exact Nat.le_refl _
  | cons m ms ih =>
    have hmade := ih (lib.makeMove b m)
    have hnull := ih (lib.makeNullMove b)
    simp only [fensFrom]
    split_ifs <;> simp only [List.length_cons, List.length_nil] <;> omega

theorem ply_of_entry {id : Int} {rows : List StoredMove} {body : List (Option FenDTO)}
    {i : Nat} {dto : FenDTO} (h : lib.fenResponse id rows = .ok body)
    (hi : body[i]? = some (some dto)) : dto.ply = plyOfIndex i ∧ i < rows.length := by
  rcases lib.fenResponse_cases id rows with ⟨-, he⟩ | ⟨-, he⟩
  · rw [he] at h
    cases h
  · obtain rfl := FenResponse.ok.inj (he.symm.trans h)
    obtain ⟨fen, hfen, rfl⟩ := fenDtos_getElem?.mp hi
    obtain ⟨hlt, -⟩ := List.getElem?_eq_some_iff.mp hfen
    have hle := length_fensFrom_le lib.start (rows.map StoredMove.toMove)
    rw [List.length_map] at hle
    exact ⟨by simp only, Nat.lt_of_lt_of_le hlt hle⟩

theorem fensFrom_of_not_finds {b : lib.Board} {ms : List Chess.Move}
    (h : ∀ i m, ms[i]? = some m → lib.finds (lib.makeNullMove^[i] b) m = false) :
    lib.fensFrom b ms = List.replicate ms.length none := by
  induction ms generalizing b with
  | nil => rfl
  | cons m ms ih =>
    have hm : lib.finds b m = false := h 0 m rfl
    have hms := ih (b := lib.makeNullMove b) fun i n hn => by
      simpa only [Function.iterate_succ_apply] using h (i + 1) n hn
    simp [fensFrom, hm, hms, List.replicate_succ]

theorem not_finds_of_fensFrom {b : lib.Board} {ms : List Chess.Move}
    (h : ∀ (i : Nat) (fen : String), (lib.fensFrom b ms)[i]? ≠ some (some fen)) {i : Nat}
    {m : Chess.Move} (hm : ms[i]? = some m) : lib.finds (lib.makeNullMove^[i] b) m = false := by
  induction ms generalizing b i with
  | nil => simp at hm
  | cons n ms ih =>
    have hn : lib.finds b n = false := by
      by_contra hf
      have hf : lib.finds b n = true := by simpa using hf
      exact h 0 (lib.getFen (lib.makeMove b n)) (by simp [fensFrom, hf])
    have hfens : lib.fensFrom b (n :: ms) = none :: lib.fensFrom (lib.makeNullMove b) ms := by
      simp [fensFrom, hn]
    cases i with
    | zero =>
      obtain rfl : n = m := by simpa using hm
      exact hn
    | succ i =>
      rw [Function.iterate_succ_apply]
      refine ih (fun j fen hj => h (j + 1) fen ?_) (by simpa using hm)
      rw [hfens]
      simpa using hj

end Chess.Library

end SmakChess
