import SmakChess.Fsm

/-! The closed form of `pin_change`. On a well-formed state and a pin of the
board, one event latches the sensor, chooses one `Reaction` from the state and
the square, and applies it. -/

namespace SmakChess

/-- What holds between two events as long as every pin was on the board: the
scratch squares are in range, and a started machine has a state. -/
structure WellFormed (st : ChessState) : Prop where
  x_lt : st.x < 64
  y_lt : st.y < 64
  inRange : st.directToError = false
  current : st.isStarted = true → st.ctx.current.isSome

inductive Reaction
  | ignore
  | halt
  | enter (s : States) (x y : Nat)
  | derail
  | quiet (c : Color) (x : Nat)
  | capture (c : Color)
  | castle (c : Color) (v : Wing)
  deriving DecidableEq, Repr

/-! What a completed ply does to the state. -/

def lastRank : Color → Nat → Bool
  | .white, s => decide (s < 8)
  | .black, s => decide (s > 63 - 8)

def twoRanks : Color → Nat → Nat → Bool
  | .white, x, s => (s : Int) - x == -16
  | .black, x, s => (s : Int) - x == 16

def jumped : Color → Nat → Nat
  | .white, s => (s + 8) % 256
  | .black, s => (s + 256 - 8) % 256

def promote (c : Color) (b : Board) (s : Nat) : Board :=
  if b s = .man c .pawn ∧ lastRank c s = true then Function.update b s (.man c .queen) else b

def rightsAfter (c : Color) (landed : SmakPiece) (x : Nat) (right : Color → Wing → Bool) :
    Color → Wing → Bool :=
  if landed = .man c .king then
    Function.update right c fun _ => false
  else if landed = .man c .rook then
    Function.update right c fun v => right c v && x == rookStartingsquare c v
  else right

def moved (b : Board) (x s : Nat) : Board :=
  Function.update (Function.update b s (b x)) x .emptySquare

def castled (c : Color) (v : Wing) (b : Board) : Board :=
  Function.update (Function.update (Function.update (Function.update b
    (rookStartingsquare c v) .emptySquare) (rookCastlesquare c v) (.man c .rook))
    (kingStartingsquare c) .emptySquare) (kingCastlesquare c v) (.man c .king)

def enPassantAt (st : ChessState) (s : Nat) : Bool :=
  st.enPassant && st.enPassantSquare == s

def captured (st : ChessState) : Board :=
  if enPassantAt st st.pinNumber then
    Function.update (moved st.board st.x st.pinNumber) st.y .emptySquare
  else moved st.board st.x st.pinNumber

def ChessState.goto (st : ChessState) (s : States) : ChessState :=
  { st with ctx := { st.ctx with current := some s }, stateVal := s }

def quietEffect (c : Color) (st : ChessState) : ChessState :=
  let b := moved st.board st.x st.pinNumber
  { st.goto (.of c.other .base) with
    board := promote c b st.pinNumber
    ply := (st.ply + 1) % 256
    enPassant := if b st.pinNumber = .man c .pawn then twoRanks c st.x st.pinNumber else st.enPassant
    enPassantSquare :=
      if b st.pinNumber = .man c .pawn then jumped c st.pinNumber else st.enPassantSquare
    plySincePonr := if b st.pinNumber = .man c .pawn then 0 else (st.plySincePonr + 1) % 256
    right := rightsAfter c (b st.pinNumber) st.x st.right
    shellObj :=
      { id := 0
        ply := (st.ply + 1) % 256
        fromSquare := st.x
        toSquare := st.pinNumber
        piece := promote c b st.pinNumber st.pinNumber
        captured := .emptySquare
        movetype := .normal } }

def captureEffect (c : Color) (st : ChessState) : ChessState :=
  let b := captured st
  { st.goto (.of c.other .base) with
    board := promote c b st.pinNumber
    ply := (st.ply + 1) % 256
    enPassant := false
    plySincePonr := 0
    right := rightsAfter c (b st.pinNumber) st.x st.right
    shellObj :=
      { id := 0
        ply := (st.ply + 1) % 256
        fromSquare := st.x
        toSquare := st.pinNumber
        piece := promote c b st.pinNumber st.pinNumber
        captured := .emptySquare
        movetype := .normal } }

def castleEffect (c : Color) (v : Wing) (st : ChessState) : ChessState :=
  sendMoveCastle v
    { st.goto (.of c.other .base) with
      right := Function.update st.right c fun _ => false
      ply := (st.ply + 1) % 256
      enPassant := false
      board := castled c v st.board } (c == .white)

def react : Reaction → ChessState → ChessState
  | .ignore, st => st
  | .halt, st => smfSetTerminate st
  | .enter s x y, st => ((st.setX x).setY y).goto s
  | .derail, st => { st with ctx := { st.ctx with current := some .black }, stateVal := .error }
  | .quiet c x, st => quietEffect c (st.setX x)
  | .capture c, st => captureEffect c st
  | .castle c v, st => castleEffect c v st

/-! The choice of the reaction. -/

/-- The framework's view at the next event: the first one after a reset sets
the initial state. -/
def resume (st : ChessState) : SmfCtx :=
  if st.isStarted then st.ctx else { current := some .white, terminate := false }

def mayCastle (st : ChessState) (c : Color) (s : Nat) : Bool :=
  st.board s == .man c .king && (st.right c .kingside || st.right c .queenside)

theorem mayCastle_eq_true {st : ChessState} {c : Color} {x : Nat} :
    mayCastle st c x = true ↔ st.board x = .man c .king ∧ ∃ v, st.right c v = true := by
  simp only [mayCastle, Bool.and_eq_true, beq_iff_eq, Bool.or_eq_true, and_congr_right_iff]
  intro _
  constructor
  · rintro (h | h)
    exacts [⟨_, h⟩, ⟨_, h⟩]
  · rintro ⟨_ | _, h⟩
    exacts [.inl h, .inr h]

def baseReaction (c : Color) (st : ChessState) (e : Event) : Reaction :=
  if e.isUp = false ∨ st.board e.pinNumber = .emptySquare then .enter .error st.x st.y
  else if mayCastle st c e.pinNumber then .enter (.of c .castling) st.x st.y
  else if (st.board e.pinNumber).owner = some c then .enter (.of c .move) e.pinNumber st.y
  else .enter (.of c .enemyCapture) st.x e.pinNumber

def moveReaction (c : Color) (st : ChessState) (e : Event) : Reaction :=
  if e.isUp = false then
    if st.x = e.pinNumber then .enter (.of c .base) st.x st.y else .quiet c st.x
  else if (st.board e.pinNumber).owner = some c.other then .enter (.of c .capture) st.x e.pinNumber
  else .enter .error st.x st.y

/-- A capture completes on the victim's square or on the en-passant square. In
any other case the two sides differ: the black half goes to `error`, the white
half reports `error` but lets the machine go on in `black`. -/
def captureReaction (c : Color) (st : ChessState) (e : Event) : Reaction :=
  if e.isUp = false ∧ (st.y = e.pinNumber ∨ enPassantAt st e.pinNumber = true) then .capture c
  else if c = .white then .derail
  else .enter .error st.x st.y

def enemyCaptureReaction (c : Color) (st : ChessState) (e : Event) : Reaction :=
  if e.isUp = true then
    if (st.board e.pinNumber).owner = some c then .enter (.of c .capture) e.pinNumber st.y
    else .enter .error st.x st.y
  else if e.pinNumber = st.y then .enter (.of c .base) st.x st.y
  else .enter .error st.x st.y

def castlingReaction (c : Color) (st : ChessState) (e : Event) : Reaction :=
  if e.isUp = false then
    if e.pinNumber = kingStartingsquare c then .enter (.of c .base) st.x st.y
    else if e.pinNumber = kingCastlesquare c .kingside ∧ st.right c .kingside = true then
      .enter (.of c (.kingdown .kingside)) st.x st.y
    else if e.pinNumber = kingCastlesquare c .queenside ∧ st.right c .queenside = true then
      .enter (.of c (.kingdown .queenside)) st.x st.y
    else .quiet c (kingStartingsquare c)
  else if (st.board e.pinNumber).owner = some c then
    if st.board e.pinNumber = .man c .rook ∧ e.pinNumber = rookStartingsquare c .kingside ∧
        st.right c .kingside = true then
      .enter (.of c (.kingupRookup .kingside)) st.x st.y
    else if st.board e.pinNumber = .man c .rook ∧ e.pinNumber = rookStartingsquare c .queenside ∧
        st.right c .queenside = true then
      .enter (.of c (.kingupRookup .queenside)) st.x st.y
    else .enter .error st.x st.y
  else if (st.board e.pinNumber).owner = some c.other then
    .enter (.of c .capture) (kingStartingsquare c) e.pinNumber
  else .ignore

def kingdownReaction (c : Color) (v : Wing) (st : ChessState) (e : Event) : Reaction :=
  if e.isUp = true ∧ st.board e.pinNumber = .man c .rook ∧
      e.pinNumber = rookStartingsquare c v then
    .enter (.of c (.kingdownRookup v)) st.x st.y
  else .enter .error st.x st.y

def kingupRookupReaction (c : Color) (v : Wing) (st : ChessState) (e : Event) : Reaction :=
  if e.isUp = false ∧ e.pinNumber = kingCastlesquare c v then
    .enter (.of c (.kingdownRookup v)) st.x st.y
  else if e.isUp = false ∧ e.pinNumber = rookCastlesquare c v then
    .enter (.of c (.kingupRookdown v)) st.x st.y
  else .enter .error st.x st.y

def lastDownReaction (c : Color) (v : Wing) (s : Nat) (st : ChessState) (e : Event) : Reaction :=
  if e.isUp = false ∧ e.pinNumber = s then .castle c v else .enter .error st.x st.y

def stateReaction : States → ChessState → Event → Reaction
  | .error, _, _ => .halt
  | .of c .base, st, e => baseReaction c st e
  | .of c .move, st, e => moveReaction c st e
  | .of c .capture, st, e => captureReaction c st e
  | .of c .enemyCapture, st, e => enemyCaptureReaction c st e
  | .of c .castling, st, e => castlingReaction c st e
  | .of c (.kingdown v), st, e => kingdownReaction c v st e
  | .of c (.kingupRookup v), st, e => kingupRookupReaction c v st e
  | .of c (.kingdownRookup v), st, e => lastDownReaction c v (rookCastlesquare c v) st e
  | .of c (.kingupRookdown v), st, e => lastDownReaction c v (kingCastlesquare c v) st e

/-- The state whose run function the next event calls, if any. -/
def active (st : ChessState) : Option States :=
  if (resume st).terminate then none else (resume st).current

def reaction (st : ChessState) (e : Event) : Reaction :=
  match active st with
  | none => .ignore
  | some s => stateReaction s st e

def canCastleLatch (st : ChessState) (s : Nat) : Bool :=
  match st.stateVal with
  | .of c .base => mayCastle st c s
  | _ => st.canCastle

def sense (st : ChessState) (e : Event) : ChessState :=
  { st with
    ctx := resume st
    isUp := e.isUp
    isDown := !e.isUp
    pinNumber := e.pinNumber
    piece := st.board e.pinNumber
    isEmptySquare := st.board e.pinNumber == .emptySquare
    isBlackPiece := (st.board e.pinNumber).owner == some .black
    isWhitePiece := (st.board e.pinNumber).owner == some .white
    canCastle := canCastleLatch st e.pinNumber
    isStarted := true }

def next (st : ChessState) (e : Event) : ChessState := react (reaction st e) (sense st e)

end SmakChess
