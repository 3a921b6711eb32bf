import SmakChess.Navigation
import SmakChess.Objects
import SmakChess.Texts

/-! The positions of `chessboard.js`: what is checked of them, and how they are
turned into the placement field of a FEN and back. -/

namespace SmakChess.Web

open Objects Texts

/-- A position: the pieces by their squares. -/
abbrev PositionObject := Object String String

/-- `COLUMNS`. -/
def columns : List String := ["a", "b", "c", "d", "e", "f", "g", "h"]

/-- `COLUMNS[i] + currentRow`. -/
def columnRow (i currentRow : Nat) : String := columns.getD i "undefined" ++ toString currentRow

def validSquare (square : String) : Bool :=
  match square.toList with
  | [file, rank] => validFile file && validRank rank
  | _ => false

def validMove (move : String) : Bool :=
  match move.toList.splitOn '-' with
  | [a, b] => validSquare (String.ofList a) && validSquare (String.ofList b)
  | _ => false

def validPieceCode (code : String) : Bool :=
  match code.toList with
  | [color, kind] => "bw".toList.contains color && "KQRNBP".toList.contains kind
  | _ => false

def lineTerminator (c : Char) : Bool := "\n\r\u2028\u2029".toList.contains c

/-- `fen.replace(/ .+$/, '')`. -/
def cutInfo : List Char → List Char
  | [] => []
  | c :: s => if c = ' ' ∧ s ≠ [] ∧ ¬ s.any lineTerminator then [] else c :: cutInfo s

def ones (n : Nat) : List Char := List.replicate n '1'

def squeezeFenEmptySquares (fen : List Char) : List Char :=
  replaceAll (ones 2) ['2'] (replaceAll (ones 3) ['3'] (replaceAll (ones 4) ['4']
    (replaceAll (ones 5) ['5'] (replaceAll (ones 6) ['6'] (replaceAll (ones 7) ['7']
      (replaceAll (ones 8) ['8'] fen))))))

def expandFenEmptySquares (fen : List Char) : List Char :=
  replaceLetter '2' (ones 2) (replaceLetter '3' (ones 3) (replaceLetter '4' (ones 4)
    (replaceLetter '5' (ones 5) (replaceLetter '6' (ones 6) (replaceLetter '7' (ones 7)
      (replaceLetter '8' (ones 8) fen))))))

/-- What a section of a valid FEN is made of, with its empty squares expanded. -/
def fenLetters : List Char := "kqrnbpKQRNBP1".toList

def validFen (fen : String) : Bool :=
  let chunks := (expandFenEmptySquares (cutInfo fen.toList)).splitOn '/'
  chunks.length == 8 && chunks.all fun chunk => chunk.length == 8 && chunk.all fenLetters.contains

def validPositionObject (pos : PositionObject) : Bool :=
  pos.entries.all fun e => validSquare e.1 && validPieceCode e.2

def fenToPieceCode (piece : Char) : String :=
  if piece.toLower = piece then "b" ++ piece.toUpper.toString else "w" ++ piece.toUpper.toString

def pieceCodeToFen (piece : String) : Char :=
  let letters := piece.toList
  if letters.head? = some 'w' then (letters.getD 1 ' ').toUpper else (letters.getD 1 ' ').toLower

/-- One section of a FEN, from the column `colIdx` on. -/
def fenToRow (currentRow : Nat) : Nat → PositionObject → List Char → PositionObject
  | _, position, [] => position
  | colIdx, position, c :: row =>
    if '1' ≤ c ∧ c ≤ '8' then fenToRow currentRow (colIdx + (c.toNat - '0'.toNat)) position row
    else fenToRow currentRow (colIdx + 1)
      (position.set (columnRow colIdx currentRow) (fenToPieceCode c)) row

/-- The rows of a FEN, from the eighth down. -/
def fenToRows (rows : List (List Char)) : PositionObject :=
  (List.range 8).foldl (fun position i => fenToRow (8 - i) 0 position (rows.getD i [])) .empty

def fenToObj (fen : String) : Option PositionObject :=
  if validFen fen then some (fenToRows ((cutInfo fen.toList).splitOn '/')) else none

def fenSquare (obj : PositionObject) (i j : Nat) : Char :=
  match obj.get (columnRow j (8 - i)) with
  | some piece => pieceCodeToFen piece
  | none => '1'

def objToFen (obj : PositionObject) : Option String :=
  if validPositionObject obj then
    let fen := (List.range 8).flatMap fun i =>
      (List.range 8).map (fenSquare obj i) ++ if i ≠ 7 then ['/'] else []
    some (String.ofList (squeezeFenEmptySquares fen))
  else none

def startFen : String := "rnbqkbnr/pppppppp/8/8/8/8/PPPPPPPP/RNBQKBNR"

/-! Squares. -/

section Squares

variable {i j r r' n : Nat} {square : String}

theorem toList_columnRow : ∀ i < 8, ∀ r < 9, (columnRow i r).toList =
    [Char.ofNat (97 + i), Char.ofNat (48 + r)] := by decide

theorem columnRow_inj (hi : i < 8) (hj : j < 8) (hr : r < 9) (hr' : r' < 9)
    (h : columnRow i r = columnRow j r') : i = j ∧ r = r' := by
  have hfile : ∀ i < 8, ∀ j < 8, Char.ofNat (97 + i) = Char.ofNat (97 + j) → i = j := by decide
  have hrank : ∀ r < 9, ∀ r' < 9, Char.ofNat (48 + r) = Char.ofNat (48 + r') → r = r' := by decide
  have hlist := congrArg String.toList h
  rw [toList_columnRow i hi r hr, toList_columnRow j hj r' hr'] at hlist
  obtain ⟨h1, h2⟩ := by simpa using hlist
  exact ⟨hfile i hi j hj h1, hrank r hr r' hr' h2⟩

theorem validSquare_columnRow : ∀ i < 8, ∀ r < 9, 0 < r → validSquare (columnRow i r) = true := by
  decide

theorem ofNat_of_between (c : Char) (lo n : Nat) (hlo : lo ≤ c.toNat) (hhi : c.toNat < lo + n) :
    ∃ k < n, c = Char.ofNat (lo + k) :=
  ⟨c.toNat - lo, by omega, by rw [Nat.add_sub_cancel' hlo, Char.ofNat_toNat]⟩

/-- The valid squares are those of the board. -/
theorem exists_columnRow (h : validSquare square = true) :
    ∃ j < 8, ∃ i < 8, square = columnRow j (8 - i) := by
  unfold validSquare at h
  split at h
  next file rank hlist =>
    simp only [validFile, validRank, Bool.and_eq_true, decide_eq_true_eq] at h
    obtain ⟨⟨ha, hh⟩, h1, h8⟩ := h
    obtain ⟨j, hj, rfl⟩ := ofNat_of_between file 97 8 ha (by
      have hle : file.toNat ≤ 104 := hh
      omega)
    obtain ⟨r, hr, rfl⟩ := ofNat_of_between rank 49 8 h1 (by
      have hle : rank.toNat ≤ 56 := h8
      omega)
    refine ⟨j, hj, 7 - r, by omega, ?_⟩
    have hrow : 8 - (7 - r) = r + 1 := by omega
    rw [hrow, ← String.toList_inj, hlist, toList_columnRow j hj (r + 1) (by omega)]
    congr 3
    omega
  · cases h

end Squares

end SmakChess.Web
