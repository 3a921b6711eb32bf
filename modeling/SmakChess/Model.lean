import Mathlib.Logic.Function.Basic
import Mathlib.Tactic.Common

/-! The data of the board firmware: `model.h`, the tables of `model.c`, and
`struct chess_state` of `fsm.c`. Values of one kind that differ only in colour
or wing are tables indexed by `Color` and `Wing`. -/

namespace SmakChess

inductive Color
  | white
  | black
  deriving DecidableEq, Repr

def Color.other : Color → Color
  | .white => .black
  | .black => .white

inductive Wing
  | kingside
  | queenside
  deriving DecidableEq, Repr

inductive Kind
  | pawn
  | rook
  | knight
  | bishop
  | queen
  | king
  deriving DecidableEq, Repr

/-- The letters of `enum smak_pieces`: what one square of the board holds. -/
inductive SmakPiece
  | emptySquare
  | man (c : Color) (k : Kind)
  deriving DecidableEq, Repr

@[match_pattern] abbrev pWhitePawn : SmakPiece := .man .white .pawn
@[match_pattern] abbrev pBlackPawn : SmakPiece := .man .black .pawn

def SmakPiece.toChar : SmakPiece → Char
  | .emptySquare => ' '
  | .man .white .pawn => 'P'
  | .man .white .rook => 'R'
  | .man .white .knight => 'N'
  | .man .white .bishop => 'B'
  | .man .white .queen => 'Q'
  | .man .white .king => 'K'
  | .man .black .pawn => 'p'
  | .man .black .rook => 'r'
  | .man .black .knight => 'n'
  | .man .black .bishop => 'b'
  | .man .black .queen => 'q'
  | .man .black .king => 'k'

def SmakPiece.owner : SmakPiece → Option Color
  | .emptySquare => none
  | .man c _ => some c

/-! The castling squares of `enum smak_pieces`. -/

def kingStartingsquare : Color → Nat
  | .white => 63 - 3
  | .black => 0 + 4

def rookStartingsquare : Color → Wing → Nat
  | .white, .kingside => 63 - 0
  | .white, .queenside => 63 - 7
  | .black, .kingside => 0 + 7
  | .black, .queenside => 0

def kingCastlesquare : Color → Wing → Nat
  | .white, .kingside => 63 - 1
  | .white, .queenside => 63 - 5
  | .black, .kingside => 0 + 6
  | .black, .queenside => 0 + 2

def rookCastlesquare : Color → Wing → Nat
  | .white, .kingside => 63 - 2
  | .white, .queenside => 63 - 4
  | .black, .kingside => 0 + 5
  | .black, .queenside => 0 + 3

inductive MoveType
  | enPassant
  | castling
  | promotion
  | normal
  deriving DecidableEq, Repr

structure SmakJsonObj where
  id : Nat
  ply : Nat
  fromSquare : Nat
  toSquare : Nat
  piece : SmakPiece
  captured : SmakPiece
  movetype : MoveType
  deriving DecidableEq, Repr

/-- Where one side is in its ply. The machine has these thirteen phases for
each side. -/
inductive Phase
  | base
  | move
  | capture
  | enemyCapture
  | castling
  | kingdown (v : Wing)
  | kingupRookup (v : Wing)
  | kingdownRookup (v : Wing)
  | kingupRookdown (v : Wing)
  deriving DecidableEq, Repr

inductive States
  | of (c : Color) (p : Phase)
  | error
  deriving DecidableEq, Repr

namespace States

@[match_pattern] abbrev white : States := .of .white .base
@[match_pattern] abbrev whiteMove : States := .of .white .move
@[match_pattern] abbrev whiteCapture : States := .of .white .capture
@[match_pattern] abbrev whiteEnemyCapture : States := .of .white .enemyCapture
@[match_pattern] abbrev whiteCastling : States := .of .white .castling
@[match_pattern] abbrev whiteCastlingKingsideKingdown : States := .of .white (.kingdown .kingside)
@[match_pattern] abbrev whiteCastlingQueensideKingdown : States := .of .white (.kingdown .queenside)
@[match_pattern] abbrev whiteCastlingKingsideKingupRookup : States :=
  .of .white (.kingupRookup .kingside)
@[match_pattern] abbrev whiteCastlingQueensideKingupRookup : States :=
  .of .white (.kingupRookup .queenside)
@[match_pattern] abbrev whiteCastlingKingsideKingdownRookup : States :=
  .of .white (.kingdownRookup .kingside)
@[match_pattern] abbrev whiteCastlingQueensideKingdownRookup : States :=
  .of .white (.kingdownRookup .queenside)
@[match_pattern] abbrev whiteCastlingKingsideKingupRookdown : States :=
  .of .white (.kingupRookdown .kingside)
@[match_pattern] abbrev whiteCastlingQueensideKingupRookdown : States :=
  .of .white (.kingupRookdown .queenside)
@[match_pattern] abbrev black : States := .of .black .base
@[match_pattern] abbrev blackMove : States := .of .black .move
@[match_pattern] abbrev blackCapture : States := .of .black .capture
@[match_pattern] abbrev blackEnemyCapture : States := .of .black .enemyCapture
@[match_pattern] abbrev blackCastling : States := .of .black .castling
@[match_pattern] abbrev blackCastlingKingsideKingdown : States := .of .black (.kingdown .kingside)
@[match_pattern] abbrev blackCastlingQueensideKingdown : States := .of .black (.kingdown .queenside)
@[match_pattern] abbrev blackCastlingKingsideKingupRookup : States :=
  .of .black (.kingupRookup .kingside)
@[match_pattern] abbrev blackCastlingQueensideKingupRookup : States :=
  .of .black (.kingupRookup .queenside)
@[match_pattern] abbrev blackCastlingKingsideKingdownRookup : States :=
  .of .black (.kingdownRookup .kingside)
@[match_pattern] abbrev blackCastlingQueensideKingdownRookup : States :=
  .of .black (.kingdownRookup .queenside)
@[match_pattern] abbrev blackCastlingKingsideKingupRookdown : States :=
  .of .black (.kingupRookdown .kingside)
@[match_pattern] abbrev blackCastlingQueensideKingupRookdown : States :=
  .of .black (.kingupRookdown .queenside)

end States

/-- `char board[64]`. Entries from 64 on are not part of the array:
`ChessState.read` and `ChessState.write` refuse them. -/
abbrev Board := Nat → SmakPiece

def startingBoardInitializer : List SmakPiece :=
  let rank (c : Color) : List SmakPiece :=
    [.man c .rook, .man c .knight, .man c .bishop, .man c .queen,
      .man c .king, .man c .bishop, .man c .knight, .man c .rook]
  rank .black ++ List.replicate 8 (.man .black .pawn) ++ List.replicate 32 .emptySquare ++
    List.replicate 8 (.man .white .pawn) ++ rank .white

def startingBoard : Board := fun s => startingBoardInitializer.getD s .emptySquare

/-- The part of Zephyr's `struct smf_ctx` a flat machine uses: the current
state (`NULL` before the first one is set) and the terminate flag. -/
structure SmfCtx where
  current : Option States
  terminate : Bool
  deriving DecidableEq, Repr

/-- `struct chess_state`, together with the global `shell_obj` the machine
writes its messages to. -/
structure ChessState where
  ctx : SmfCtx
  isUp : Bool
  isDown : Bool
  pinNumber : Nat
  isEmptySquare : Bool
  isBlackPiece : Bool
  isWhitePiece : Bool
  directToError : Bool
  board : Board
  piece : SmakPiece
  canCastle : Bool
  stateVal : States
  right : Color → Wing → Bool
  enPassant : Bool
  enPassantSquare : Nat
  plySincePonr : Nat
  ply : Nat
  y : Nat
  x : Nat
  isStarted : Bool
  shellObj : SmakJsonObj

/-- What stops the C program: an access outside `board[64]`, or running a
state machine that has no current state. `recursion` marks a call nested deeper
than `pinChange` unfolds; `pinChange_recursive` shows that there is none. -/
inductive Fault
  | board (index : Nat)
  | noState
  | recursion
  deriving DecidableEq, Repr

/-- `pin`: the square number of a two-character name such as `"e4"`. The
arithmetic is that of `uint8_t`, and nothing checks the characters. -/
def pin (fileChar rankChar : UInt8) : UInt8 :=
  let file := fileChar - 97
  let rank := rankChar - 48
  let r := (8 - rank) <<< 3
  r ||| file

example : pin 97 56 = 0 ∧ pin 104 49 = 63 ∧ pin 97 48 = 64 := by decide

end SmakChess
