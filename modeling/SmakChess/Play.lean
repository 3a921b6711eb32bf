import SmakChess.Chess
import SmakChess.Held

/-! Legal games played on the board: each ply is performed by one of the orders
of lifts and put-downs that the machine supports. -/

namespace SmakChess

open Machine

/-- The three orders of a castling, named as in the tests. -/
inductive CastlingOrder
  | krkr
  | krrk
  | kkrr
  deriving DecidableEq, Repr

inductive Performance
  | quiet (x s : Nat)
  | capture (victimFirst : Bool) (x s : Nat)
  | enPassant (victimFirst : Bool) (x s : Nat)
  | castle (o : CastlingOrder) (v : Wing)
  deriving DecidableEq, Repr

namespace Performance

def move : Performance → Move
  | quiet x s => .quiet x s
  | capture _ x s => .capture x s
  | enPassant _ x s => .enPassant x s
  | castle _ v => .castle v

def takes (victimFirst : Bool) (x y s : Nat) : List Event :=
  if victimFirst then [lift y, lift x, put s] else [lift x, lift y, put s]

def castles (c : Color) (v : Wing) : CastlingOrder → List Event
  | .krkr => [lift (kingStartingsquare c), lift (rookStartingsquare c v),
      put (kingCastlesquare c v), put (rookCastlesquare c v)]
  | .krrk => [lift (kingStartingsquare c), lift (rookStartingsquare c v),
      put (rookCastlesquare c v), put (kingCastlesquare c v)]
  | .kkrr => [lift (kingStartingsquare c), put (kingCastlesquare c v),
      lift (rookStartingsquare c v), put (rookCastlesquare c v)]

def events (c : Color) : Performance → List Event
  | quiet x s => [lift x, put s]
  | capture victimFirst x s => takes victimFirst x s s
  | enPassant victimFirst x s => takes victimFirst x (victimSquare c s) s
  | castle o v => castles c v o

end Performance

inductive GameFault
  | illegal
  | fsm (f : Fault)
  deriving DecidableEq, Repr

/-- One ply of a game: it must be legal, and the machine gets its events. -/
def gameStep (g : Position × ChessState) (m : Performance) :
    Except GameFault (Position × ChessState) :=
  if g.1.legal m.move then
    match run step g.2 (m.events g.1.turn) with
    | .ok st => .ok (g.1.play m.move, st)
    | .error f => .error (.fsm f)
  else .error .illegal

def FollowsGame (p : Position) (st : ChessState) : Prop :=
  st.stateVal = .of p.turn .base ∧ st.ctx.current = some (.of p.turn .base) ∧
    ∀ s < 64, st.board s = p.board s

/-- Castling finds its right set, and a capture on an occupied square does not
meet the en-passant flag there. -/
def Supported (p : Position) (st : ChessState) : Move → Prop
  | .castle v => st.right p.turn v = true
  | .capture _ s => enPassantAt st s = false
  | _ => True

/-! The two boards. -/

section Boards

variable {b : Board} {c : Color} {v : Wing} {p : Position} {x y s : Nat} {m : Move}

theorem moved_comm (h : x ≠ s) :
    moved b x s = Function.update (Function.update b x .emptySquare) s (b x) :=
  Function.update_comm h.symm ..

theorem lastRank_iff (h : s < 64) : lastRank c s = true ↔ rowOf s = lastRow c := by
  cases c <;> simp only [lastRank, rowOf, lastRow, decide_eq_true_eq] <;> omega

theorem crown_eq (hs : s < 64) (ho : (b x).owner = some c) : Position.crown s (b x) =
    if b x = .man c .pawn ∧ lastRank c s = true then .man c .queen else b x := by
  cases hk : b x with
  | emptySquare => rw [hk] at ho; cases ho
  | man d k =>
    rw [hk] at ho
    obtain rfl := eq_of_owner ho
    cases k <;> simp [Position.crown, lastRank_iff hs]

theorem promote_moved (hxs : x ≠ s) (hs : s < 64) (ho : (b x).owner = some c) :
    promote c (moved b x s) s =
      Function.update (Function.update b x .emptySquare) s (Position.crown s (b x)) := by
  rw [promote, moved_target hxs, crown_eq hs ho, moved_comm hxs]
  split_ifs
  · exact Function.update_idem ..
  · rfl

theorem crown_ne_emptySquare {k : SmakPiece} (h : k ≠ .emptySquare) :
    Position.crown s k ≠ .emptySquare := by
  cases k with
  | emptySquare => exact absurd rfl h
  | man c k =>
    cases k <;> simp only [Position.crown] <;> try split_ifs
    all_goals exact SmakPiece.noConfusion

theorem boardAfter_castle :
    p.boardAfter (.castle v) = castled p.turn v p.board := by
  have hkr : kingStartingsquare p.turn ≠ rookStartingsquare p.turn v := by
    cases p.turn <;> cases v <;> decide
  have hkc : kingStartingsquare p.turn ≠ rookCastlesquare p.turn v := by
    cases p.turn <;> cases v <;> decide
  have hcc : kingCastlesquare p.turn v ≠ rookCastlesquare p.turn v := by
    cases p.turn <;> cases v <;> decide
  rw [Position.boardAfter, Function.update_comm hcc, Function.update_comm hkr,
    Function.update_comm hkc]
  rfl

theorem reaches_two (hx : x < 64) (hs : s < 64) (hb : p.board x = .man p.turn .pawn)
    (hr : p.reaches x s = true) (hg : gap (rowOf x) (rowOf s) = 2) :
    twoRanks p.turn x s = true ∧ jumped p.turn s = (x + s) / 2 ∧
      victimSquare p.turn.other ((x + s) / 2) = s := by
  simp only [Position.reaches, hb, Bool.and_eq_true, Bool.or_eq_true, beq_iff_eq] at hr
  obtain ⟨hfile, hrow⟩ := hr
  cases ht : p.turn with
  | white =>
    rw [ht] at hrow
    simp only [ahead, fileOf, rowOf, gap, pawnRow, beq_iff_eq] at hfile hrow hg
    simp only [twoRanks, jumped, victimSquare, Color.other, beq_iff_eq]
    omega
  | black =>
    rw [ht] at hrow
    simp only [ahead, fileOf, rowOf, gap, pawnRow, beq_iff_eq] at hfile hrow hg
    simp only [twoRanks, jumped, victimSquare, Color.other, beq_iff_eq]
    omega

theorem not_reaches_kingCastlesquare (hb : p.board (kingStartingsquare c) = .man p.turn .king) :
    p.reaches (kingStartingsquare c) (kingCastlesquare c v) = false := by
  simp only [Position.reaches, hb, attacks]
  cases c <;> cases v <;> decide

theorem pawn_attacks (hb : b x = .man c .pawn) (h : attacks b x s = true) :
    x ≠ s ∧ x ≠ victimSquare c s := by
  simp only [attacks, hb, Bool.and_eq_true, beq_iff_eq, gap, fileOf] at h
  cases c <;> simp only [ahead, rowOf, beq_iff_eq] at h <;> simp only [victimSquare] <;> omega

end Boards

end SmakChess
