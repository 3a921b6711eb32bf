import SmakChess.Model

/-! What the C++ services use of the chess library: its data, and its
operations as parameters. -/

namespace SmakChess

namespace Chess

/-- Rank 0 is the first rank, file 0 the a-file. -/
structure Square where
  rank : Int
  file : Int
  deriving DecidableEq, Repr

inductive MoveType
  | normal
  | promotion
  | enPassant
  | castling
  | nullMove
  deriving DecidableEq, Repr

/-- A move is the sum of its fields, and two moves are equal when all bits are.
Without a promotion the two bits of the piece are those of the knight. -/
structure Move where
  typeOf : MoveType
  source : Square
  target : Square
  promotionType : Kind
  deriving DecidableEq, Repr

def Move.make (source target : Square) : Move := ⟨.normal, source, target, .knight⟩

abbrev PieceType := Option Kind

/-- One kind of pieces, or the value 63 that stands for all of them. -/
inductive PieceGenType
  | only (k : Kind)
  | all
  deriving DecidableEq, Repr

def PieceGenType.covers : PieceGenType → PieceType → Bool
  | .only k, t => t == some k
  | .all, _ => true

inductive GameResultReason
  | none
  | checkmate
  | stalemate
  | insufficientMaterial
  | fiftyMoveRule
  | threefoldRepetition
  deriving DecidableEq, Repr

inductive GameResult
  | none
  | win
  | lose
  | draw
  deriving DecidableEq, Repr

/-- `start` is a board as its constructor leaves it. -/
structure Library where
  Board : Type
  start : Board
  pieceAt : Board → Square → PieceType
  legalmoves : Board → PieceGenType → List Move
  makeMove : Board → Move → Board
  makeNullMove : Board → Board
  getFen : Board → String
  isGameOver : Board → GameResultReason × GameResult
  moveToUci : Move → String

end Chess

end SmakChess
