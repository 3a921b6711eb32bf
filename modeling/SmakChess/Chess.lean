import SmakChess.Model

/-! The rules of chess, with every promotion to a queen: what a game played on
the board is to be compared with. Row 0 is the eighth rank. -/

namespace SmakChess

def fileOf (s : Nat) : Nat := s % 8

def rowOf (s : Nat) : Nat := s / 8

def gap (a b : Nat) : Nat := (a - b) + (b - a)

def pawnRow : Color → Nat
  | .white => 6
  | .black => 1

def lastRow : Color → Nat
  | .white => 0
  | .black => 7

def ahead : Color → Nat → Nat → Nat → Bool
  | .white, n, x, s => rowOf s + n == rowOf x
  | .black, n, x, s => rowOf x + n == rowOf s

/-- The squares strictly between two squares of one line. -/
def between (x s : Nat) : List Nat :=
  let n := max (gap (fileOf x) (fileOf s)) (gap (rowOf x) (rowOf s))
  (List.range (n - 1)).map fun i => (x * (n - (i + 1)) + s * (i + 1)) / n

def clear (b : Board) (x s : Nat) : Bool := (between x s).all fun i => b i == .emptySquare

def straight (x s : Nat) : Bool :=
  x != s && (fileOf x == fileOf s || rowOf x == rowOf s)

def diagonal (x s : Nat) : Bool :=
  x != s && gap (fileOf x) (fileOf s) == gap (rowOf x) (rowOf s)

def attacks (b : Board) (x s : Nat) : Bool :=
  let df := gap (fileOf x) (fileOf s)
  let dr := gap (rowOf x) (rowOf s)
  match b x with
  | .emptySquare => false
  | .man c .pawn => df == 1 && ahead c 1 x s
  | .man _ .knight => df == 1 && dr == 2 || df == 2 && dr == 1
  | .man _ .king => x != s && decide (df ≤ 1) && decide (dr ≤ 1)
  | .man _ .bishop => diagonal x s && clear b x s
  | .man _ .rook => straight x s && clear b x s
  | .man _ .queen => (diagonal x s || straight x s) && clear b x s

def attackedBy (b : Board) (c : Color) (s : Nat) : Bool :=
  (List.range 64).any fun x => (b x).owner == some c && attacks b x s

def inCheck (b : Board) (c : Color) : Bool :=
  (List.range 64).any fun s => b s == .man c .king && attackedBy b c.other s

/-- The square of the pawn that an en-passant capture on `s` by `c` takes. -/
def victimSquare : Color → Nat → Nat
  | .white, s => s + 8
  | .black, s => s - 8

inductive Move
  | quiet (x s : Nat)
  | capture (x s : Nat)
  | enPassant (x s : Nat)
  | castle (v : Wing)
  deriving DecidableEq, Repr

structure Position where
  board : Board
  turn : Color
  right : Color → Wing → Bool
  enPassant : Option Nat

namespace Position

def initial : Position := ⟨startingBoard, .white, fun _ _ => true, none⟩

def reaches (p : Position) (x s : Nat) : Bool :=
  match p.board x with
  | .man c .pawn =>
    fileOf x == fileOf s &&
      (ahead c 1 x s || rowOf x == pawnRow c && ahead c 2 x s && clear p.board x s)
  | _ => attacks p.board x s

def crown (s : Nat) : SmakPiece → SmakPiece
  | .man c .pawn => if rowOf s = lastRow c then .man c .queen else .man c .pawn
  | k => k

def boardAfter (p : Position) : Move → Board
  | .quiet x s | .capture x s =>
    Function.update (Function.update p.board x .emptySquare) s (crown s (p.board x))
  | .enPassant x s =>
    Function.update (Function.update (Function.update p.board x .emptySquare)
      (victimSquare p.turn s) .emptySquare) s (p.board x)
  | .castle v =>
    Function.update (Function.update (Function.update (Function.update p.board
      (kingStartingsquare p.turn) .emptySquare) (rookStartingsquare p.turn v) .emptySquare)
      (kingCastlesquare p.turn v) (.man p.turn .king)) (rookCastlesquare p.turn v)
      (.man p.turn .rook)

/-- The move touches neither the king's nor the rook's starting square. -/
def keepsRight (p : Position) (c : Color) (v : Wing) : Move → Bool
  | .quiet x s | .capture x s =>
    x != kingStartingsquare c && x != rookStartingsquare c v && s != rookStartingsquare c v
  | .enPassant _ _ => true
  | .castle _ => c != p.turn

def enPassantAfter (p : Position) : Move → Option Nat
  | .quiet x s =>
    if p.board x = .man p.turn .pawn ∧ gap (rowOf x) (rowOf s) = 2 then some ((x + s) / 2) else none
  | _ => none

def play (p : Position) (m : Move) : Position where
  board := p.boardAfter m
  turn := p.turn.other
  right c v := p.right c v && p.keepsRight c v m
  enPassant := p.enPassantAfter m

/-- The move obeys the rules of its kind; the king may still be left in check. -/
def pseudoLegal (p : Position) : Move → Prop
  | .quiet x s => x < 64 ∧ s < 64 ∧ (p.board x).owner = some p.turn ∧
      p.board s = .emptySquare ∧ p.reaches x s = true
  | .capture x s => x < 64 ∧ s < 64 ∧ (p.board x).owner = some p.turn ∧
      (p.board s).owner = some p.turn.other ∧ attacks p.board x s = true
  | .enPassant x s => x < 64 ∧ s < 64 ∧ p.enPassant = some s ∧
      p.board x = .man p.turn .pawn ∧ attacks p.board x s = true ∧
      p.board (victimSquare p.turn s) = .man p.turn.other .pawn
  | .castle v => p.right p.turn v = true ∧
      p.board (kingStartingsquare p.turn) = .man p.turn .king ∧
      p.board (rookStartingsquare p.turn v) = .man p.turn .rook ∧
      clear p.board (kingStartingsquare p.turn) (rookStartingsquare p.turn v) = true ∧
      ∀ s ∈ [kingStartingsquare p.turn, rookCastlesquare p.turn v, kingCastlesquare p.turn v],
        attackedBy p.board p.turn.other s = false

instance (p : Position) : (m : Move) → Decidable (p.pseudoLegal m)
  | .quiet x s => inferInstanceAs (Decidable (x < 64 ∧ s < 64 ∧ _ ∧ _ ∧ _))
  | .capture x s => inferInstanceAs (Decidable (x < 64 ∧ s < 64 ∧ _ ∧ _ ∧ _))
  | .enPassant x s => inferInstanceAs (Decidable (x < 64 ∧ s < 64 ∧ _ ∧ _ ∧ _ ∧ _))
  | .castle v => inferInstanceAs (Decidable (p.right p.turn v = true ∧ _ ∧ _ ∧ _ ∧ _))

def legal (p : Position) (m : Move) : Prop :=
  p.pseudoLegal m ∧ inCheck (p.boardAfter m) p.turn = false

instance (p : Position) (m : Move) : Decidable (p.legal m) :=
  inferInstanceAs (Decidable (_ ∧ _))

def legalGame : Position → List Move → Prop
  | _, [] => True
  | p, m :: ms => p.legal m ∧ (p.play m).legalGame ms

instance decidableLegalGame : (p : Position) → (ms : List Move) → Decidable (p.legalGame ms)
  | _, [] => .isTrue trivial
  | p, m :: ms => @instDecidableAnd _ _ _ (decidableLegalGame (p.play m) ms)

example : initial.legalGame [.quiet 52 36, .quiet 8 24, .quiet 36 28, .quiet 11 27,
    .enPassant 28 19] ∧ ¬ initial.legal (.quiet 52 28) := by
  decide +kernel

end Position

end SmakChess
