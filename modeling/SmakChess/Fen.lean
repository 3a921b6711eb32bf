import SmakChess.Chess

/-! The position a played game leads to, and its FEN. -/

namespace SmakChess

structure Played where
  position : Position
  halfmoves : Nat
  plies : Nat

namespace Played

def initial : Played := ⟨.initial, 0, 0⟩

def resets (p : Position) : Move → Bool
  | .quiet x _ => p.board x == .man p.turn .pawn
  | .capture _ _ | .enPassant _ _ => true
  | .castle _ => false

def play (q : Played) (m : Move) : Played where
  position := q.position.play m
  halfmoves := if resets q.position m then 0 else q.halfmoves + 1
  plies := q.plies + 1

@[simp] theorem position_initial : initial.position = .initial := rfl

@[simp] theorem position_play (q : Played) (m : Move) :
    (q.play m).position = q.position.play m := rfl

def positionsFrom : Played → List Move → List Played
  | _, [] => []
  | q, m :: ms => q.play m :: (q.play m).positionsFrom ms

end Played

def emptyCells (n : Nat) : String := if n = 0 then "" else toString n

/-- One rank of a FEN, after `n` empty squares. -/
def fenRank : Nat → List SmakPiece → String
  | n, [] => emptyCells n
  | n, .emptySquare :: ks => fenRank (n + 1) ks
  | n, .man c k :: ks =>
    emptyCells n ++ (SmakPiece.man c k).toChar.toString ++ fenRank 0 ks

def fenPlacement (b : Board) : String :=
  "/".intercalate ((List.range 8).map fun r =>
    fenRank 0 ((List.range 8).map fun f => b (8 * r + f)))

def fenSide : Color → String
  | .white => "w"
  | .black => "b"

def fenCastling (right : Color → Wing → Bool) : String :=
  let letter (c : Color) (v : Wing) (t : String) : String := if right c v then t else ""
  let t := letter .white .kingside "K" ++ letter .white .queenside "Q" ++
    letter .black .kingside "k" ++ letter .black .queenside "q"
  if t = "" then "-" else t

def squareName (s : Nat) : String :=
  (Char.ofNat ('a'.toNat + fileOf s)).toString ++ toString (8 - rowOf s)

/-- The square behind a pawn that has just made two steps may be left out when
no pawn can capture there. -/
def FenEnPassant (p : Position) (t : String) : Prop :=
  (∃ s, p.enPassant = some s ∧ t = squareName s) ∨
    t = "-" ∧ ∀ x s, ¬ p.legal (.enPassant x s)

def fenText (q : Played) (enPassant : String) : String :=
  " ".intercalate [fenPlacement q.position.board, fenSide q.position.turn,
    fenCastling q.position.right, enPassant, toString q.halfmoves,
    toString (q.plies / 2 + 1)]

def IsFen (t : String) (q : Played) : Prop :=
  ∃ enPassant, FenEnPassant q.position enPassant ∧ t = fenText q enPassant

example : fenText (Played.initial.play (.quiet 52 36)) "-" =
    "rnbqkbnr/pppppppp/8/8/4P3/8/PPPP1PPP/RNBQKBNR b KQkq - 0 1" := by
  decide +kernel

end SmakChess
