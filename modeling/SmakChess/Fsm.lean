import SmakChess.Model

/-! The board state machine of `fsm.c`, function by function. A function that
reads or writes `board` returns a `Fault` when the index is outside the array.
The two halves of the machine are one definition each, instantiated at the
squares, pieces and states of their side. -/

namespace SmakChess

def ChessState.read (st : ChessState) (i : Nat) : Except Fault SmakPiece :=
  if i < 64 then .ok (st.board i) else .error (.board i)

def ChessState.write (st : ChessState) (i : Nat) (p : SmakPiece) : Except Fault ChessState :=
  if i < 64 then .ok { st with board := Function.update st.board i p } else .error (.board i)

/-! The flat state machine framework: setting a state runs its entry action,
which is `general_entry` for every state of the table. -/

def generalEntry (st : ChessState) : ChessState :=
  if st.pinNumber > 64 then { st with directToError := true } else st

def smfSetState (st : ChessState) (s : States) : ChessState :=
  generalEntry { st with ctx := { st.ctx with current := some s } }

def smfSetInitial (st : ChessState) (s : States) : ChessState :=
  generalEntry { st with ctx := { current := some s, terminate := false } }

def smfSetTerminate (st : ChessState) : ChessState :=
  { st with ctx := { st.ctx with terminate := true } }

/-- `st->state_val = s; smf_set_state(ctx_ptr, STATE(s));` -/
def ChessState.enter (st : ChessState) (s : States) : ChessState :=
  smfSetState { st with stateVal := s } s

def ChessState.setX (st : ChessState) (x : Nat) : ChessState := { st with x := x }

def ChessState.setY (st : ChessState) (y : Nat) : ChessState := { st with y := y }

def ChessState.isPieceOf (st : ChessState) : Color → Bool
  | .white => st.isWhitePiece
  | .black => st.isBlackPiece

def ChessState.clearRights (st : ChessState) (c : Color) : ChessState :=
  { st with right := Function.update st.right c fun _ => false }

/-! Messages. -/

def sendMove (st : ChessState) : Except Fault ChessState := do
  let piece ← st.read st.pinNumber
  return { st with
    shellObj :=
      { id := 0
        ply := st.ply
        fromSquare := st.x
        toSquare := st.pinNumber
        piece := piece
        captured := .emptySquare
        movetype := .normal } }

/-- `send_move_castle_kingside` and `send_move_castle_queenside`. Only the
white side names the rook's starting square as the target. -/
def sendMoveCastle (v : Wing) (st : ChessState) (isWhite : Bool) : ChessState :=
  { st with
    shellObj :=
      { id := 0
        ply := st.ply
        fromSquare := if isWhite then kingStartingsquare .white else kingStartingsquare .black
        toSquare := if isWhite then rookStartingsquare .white v else rookCastlesquare .black v
        piece := if isWhite then .man .white .king else .man .black .king
        captured := if isWhite then .man .white .rook else .man .black .rook
        movetype := .castling } }

def sendMoveCastleKingside : ChessState → Bool → ChessState := sendMoveCastle .kingside

def sendMoveCastleQueenside : ChessState → Bool → ChessState := sendMoveCastle .queenside

/-! The bookkeeping of a completed ply. -/

def checkEnPassant (st : ChessState) (pinNumber : Nat) (piece : SmakPiece) :
    Except Fault ChessState :=
  match piece with
  | pWhitePawn => do
    if (← st.read pinNumber) == pWhitePawn then
      return { st with
        enPassant := (pinNumber : Int) - st.x == -16
        enPassantSquare := (pinNumber + 8) % 256 }
    else return st
  | pBlackPawn => do
    if (← st.read pinNumber) == pBlackPawn then
      return { st with
        enPassant := (pinNumber : Int) - st.x == 16
        enPassantSquare := (pinNumber + 256 - 8) % 256 }
    else return st
  | _ => return st

def handlePonr (st : ChessState) (pinNumber : Nat) (piece : SmakPiece) :
    Except Fault ChessState := do
  if (← st.read pinNumber) == piece then
    return { st with plySincePonr := 0 }
  else
    return { st with plySincePonr := (st.plySincePonr + 1) % 256 }

def checkCastling (st : ChessState) (pinNumber : Nat) (piece : SmakPiece) :
    Except Fault ChessState :=
  match piece with
  | .man c .king => do
    let landed ← st.read pinNumber
    if landed == .man c .king then
      return st.clearRights c
    else if landed == .man c .rook then
      return { st with
        right := Function.update st.right c
          fun v => st.right c v && st.x == rookStartingsquare c v }
    else return st
  | _ => return st

def handlePromotion (st : ChessState) (pinNumber : Nat) (piece : SmakPiece) :
    Except Fault (ChessState × Bool) :=
  match piece with
  | pWhitePawn => do
    if (← st.read pinNumber) == pWhitePawn && decide (pinNumber < 8) then
      return (← st.write pinNumber (.man .white .queen), true)
    else return (st, false)
  | pBlackPawn => do
    if (← st.read pinNumber) == pBlackPawn && decide (pinNumber > 63 - 8) then
      return (← st.write pinNumber (.man .black .queen), true)
    else return (st, false)
  | _ => return (st, false)

def canCastle (st : ChessState) (s : States) (pinNumber : Nat) : Except Fault Bool :=
  match s with
  | .white => do
    return (← st.read pinNumber) == .man .white .king &&
      (st.right .white .kingside || st.right .white .queenside)
  | .black => do
    return (← st.read pinNumber) == .man .black .king &&
      (st.right .black .kingside || st.right .black .queenside)
  | _ => return false

/-! Quiet moves and captures. -/

def baseRun (c : Color) (st : ChessState) : Except Fault ChessState := do
  if st.directToError then
    return st.enter .error
  if st.isDown || st.isEmptySquare then
    return st.enter .error
  else if ← canCastle st (.of c .base) st.pinNumber then
    return st.enter (.of c .castling)
  else if st.isPieceOf c then
    return (st.setX st.pinNumber).enter (.of c .move)
  else
    return (st.setY st.pinNumber).enter (.of c .enemyCapture)

def whiteRun : ChessState → Except Fault ChessState := baseRun .white
def blackRun : ChessState → Except Fault ChessState := baseRun .black

def moveRun (c : Color) (st : ChessState) : Except Fault ChessState := do
  let isXDown := st.isDown && st.x == st.pinNumber
  if isXDown then
    return st.enter (.of c .base)
  else if st.isDown then
    let st := st.enter (.of c.other .base)
    let st ← st.write st.pinNumber (← st.read st.x)
    let st ← st.write st.x .emptySquare
    let st := { st with ply := (st.ply + 1) % 256 }
    let st ← checkEnPassant st st.pinNumber (.man c .pawn)
    let st ← handlePonr st st.pinNumber (.man c .pawn)
    let st ← checkCastling st st.pinNumber (.man c .king)
    let (st, _) ← handlePromotion st st.pinNumber (.man c .pawn)
    sendMove st
  else if st.isPieceOf c.other then
    return (st.setY st.pinNumber).enter (.of c .capture)
  else
    return st.enter .error

def whiteMoveRun : ChessState → Except Fault ChessState := moveRun .white
def blackMoveRun : ChessState → Except Fault ChessState := moveRun .black

/-- The capture functions. The two sides set `state_val` to `error` in the
last branch, but send the machine to different states: `missed`. -/
def captureRun (c : Color) (missed : States) (st : ChessState) : Except Fault ChessState := do
  let isYDown := st.isDown && st.y == st.pinNumber
  let isEnPassant := st.isDown && st.enPassant && st.enPassantSquare == st.pinNumber
  if isYDown || isEnPassant then
    let st := st.enter (.of c.other .base)
    let _captured ← st.read st.y
    let st ← st.write st.pinNumber (← st.read st.x)
    let st ← st.write st.x .emptySquare
    let st ← if isEnPassant then st.write st.y .emptySquare else pure st
    let st := { st with
      plySincePonr := 0
      ply := (st.ply + 1) % 256
      enPassant := false }
    let st ← checkCastling st st.pinNumber (.man c .king)
    let (st, _) ← handlePromotion st st.pinNumber (.man c .pawn)
    sendMove st
  else
    return smfSetState { st with stateVal := .error } missed

def whiteCaptureRun : ChessState → Except Fault ChessState := captureRun .white .black
def blackCaptureRun : ChessState → Except Fault ChessState := captureRun .black .error

def enemyCaptureRun (c : Color) (st : ChessState) : ChessState :=
  if st.isUp && st.isPieceOf c then
    (st.setX st.pinNumber).enter (.of c .capture)
  else if st.isUp then
    st.enter .error
  else if st.pinNumber == st.y then
    st.enter (.of c .base)
  else if st.isDown then
    st.enter .error
  else st

def whiteEnemyCaptureRun (st : ChessState) : Except Fault ChessState :=
  return enemyCaptureRun .white st
def blackEnemyCaptureRun (st : ChessState) : Except Fault ChessState :=
  return enemyCaptureRun .black st

/-! Castling. `pinChange` is the recursive call of the last put-down branch. -/

def castlingRun (c : Color)
    (pinChange : ChessState → Nat → Bool → Except Fault ChessState) (st : ChessState) :
    Except Fault ChessState := do
  if st.isDown then
    if st.pinNumber == kingStartingsquare c then
      return st.enter (.of c .base)
    else if st.pinNumber == kingCastlesquare c .kingside && st.right c .kingside then
      return st.enter (.of c (.kingdown .kingside))
    else if st.pinNumber == kingCastlesquare c .queenside && st.right c .queenside then
      return st.enter (.of c (.kingdown .queenside))
    else
      let st := (st.setX (kingStartingsquare c)).enter (.of c .move)
      pinChange st st.pinNumber st.isUp
  else if st.isPieceOf c then
    if (← st.read st.pinNumber) == .man c .rook then
      if st.pinNumber == rookStartingsquare c .kingside && st.right c .kingside then
        return st.enter (.of c (.kingupRookup .kingside))
      else if st.pinNumber == rookStartingsquare c .queenside && st.right c .queenside then
        return st.enter (.of c (.kingupRookup .queenside))
      else
        return st.enter .error
    else
      return st.enter .error
  else if st.isPieceOf c.other then
    return ((st.setY st.pinNumber).setX (kingStartingsquare c)).enter (.of c .capture)
  else
    return st

def kingdownRun (c : Color) (v : Wing) (st : ChessState) : Except Fault ChessState := do
  if st.isUp then
    if (← st.read st.pinNumber) == .man c .rook && st.pinNumber == rookStartingsquare c v then
      return st.enter (.of c (.kingdownRookup v))
    else
      return st.enter .error
  else
    return st.enter .error

/-- The macros `END_KINGSIDE_CASTLING_WHITE` to `END_QUEENSIDE_CASTLING_BLACK`. -/
def endCastling (c : Color) (v : Wing) (st : ChessState) : Except Fault ChessState := do
  let st := { st.clearRights c with
    ply := (st.ply + 1) % 256
    enPassant := false }
  let st ← st.write (rookStartingsquare c v) .emptySquare
  let st ← st.write (rookCastlesquare c v) (.man c .rook)
  let st ← st.write (kingStartingsquare c) .emptySquare
  st.write (kingCastlesquare c v) (.man c .king)

def kingdownRookupRun (c : Color) (v : Wing) (st : ChessState) : Except Fault ChessState := do
  if st.isDown && st.pinNumber == rookCastlesquare c v then
    let st ← endCastling c v st
    return sendMoveCastle v (st.enter (.of c.other .base)) (c == .white)
  else
    return st.enter .error

def kingupRookupRun (c : Color) (v : Wing) (st : ChessState) : ChessState :=
  if st.isDown && st.pinNumber == kingCastlesquare c v then
    st.enter (.of c (.kingdownRookup v))
  else if st.isDown && st.pinNumber == rookCastlesquare c v then
    st.enter (.of c (.kingupRookdown v))
  else
    st.enter .error

def kingupRookdownRun (c : Color) (v : Wing) (st : ChessState) : Except Fault ChessState := do
  if st.isDown && st.pinNumber == kingCastlesquare c v then
    let st ← endCastling c v st
    return sendMoveCastle v (st.enter (.of c.other .base)) (c == .white)
  else
    return st.enter .error

def errorRun (st : ChessState) : Except Fault ChessState :=
  return smfSetTerminate st

/-! The castling states under their names. -/

def whiteCastlingRun :
    (ChessState → Nat → Bool → Except Fault ChessState) → ChessState → Except Fault ChessState :=
  castlingRun .white
def whiteCastlingKingsideKingdownRun : ChessState → Except Fault ChessState :=
  kingdownRun .white .kingside
def whiteCastlingQueensideKingdownRun : ChessState → Except Fault ChessState :=
  kingdownRun .white .queenside
def whiteCastlingKingsideKingdownRookupRun : ChessState → Except Fault ChessState :=
  kingdownRookupRun .white .kingside
def whiteCastlingQueensideKingdownRookupRun : ChessState → Except Fault ChessState :=
  kingdownRookupRun .white .queenside
def whiteCastlingKingsideKingupRookupRun (st : ChessState) : Except Fault ChessState :=
  return kingupRookupRun .white .kingside st
def whiteCastlingQueensideKingupRookupRun (st : ChessState) : Except Fault ChessState :=
  return kingupRookupRun .white .queenside st
def whiteCastlingKingsideKingupRookdownRun : ChessState → Except Fault ChessState :=
  kingupRookdownRun .white .kingside
def whiteCastlingQueensideKingupRookdownRun : ChessState → Except Fault ChessState :=
  kingupRookdownRun .white .queenside
def blackCastlingRun :
    (ChessState → Nat → Bool → Except Fault ChessState) → ChessState → Except Fault ChessState :=
  castlingRun .black
def blackCastlingKingsideKingdownRun : ChessState → Except Fault ChessState :=
  kingdownRun .black .kingside
def blackCastlingQueensideKingdownRun : ChessState → Except Fault ChessState :=
  kingdownRun .black .queenside
def blackCastlingKingsideKingdownRookupRun : ChessState → Except Fault ChessState :=
  kingdownRookupRun .black .kingside
def blackCastlingQueensideKingdownRookupRun : ChessState → Except Fault ChessState :=
  kingdownRookupRun .black .queenside
def blackCastlingKingsideKingupRookupRun (st : ChessState) : Except Fault ChessState :=
  return kingupRookupRun .black .kingside st
def blackCastlingQueensideKingupRookupRun (st : ChessState) : Except Fault ChessState :=
  return kingupRookupRun .black .queenside st
def blackCastlingKingsideKingupRookdownRun : ChessState → Except Fault ChessState :=
  kingupRookdownRun .black .kingside
def blackCastlingQueensideKingupRookdownRun : ChessState → Except Fault ChessState :=
  kingupRookdownRun .black .queenside

def smakStates (pinChange : ChessState → Nat → Bool → Except Fault ChessState) :
    States → ChessState → Except Fault ChessState
  | .white => whiteRun
  | .whiteMove => whiteMoveRun
  | .whiteCapture => whiteCaptureRun
  | .whiteEnemyCapture => whiteEnemyCaptureRun
  | .whiteCastling => whiteCastlingRun pinChange
  | .whiteCastlingKingsideKingdown => whiteCastlingKingsideKingdownRun
  | .whiteCastlingQueensideKingdown => whiteCastlingQueensideKingdownRun
  | .whiteCastlingKingsideKingupRookup => whiteCastlingKingsideKingupRookupRun
  | .whiteCastlingQueensideKingupRookup => whiteCastlingQueensideKingupRookupRun
  | .whiteCastlingKingsideKingdownRookup => whiteCastlingKingsideKingdownRookupRun
  | .whiteCastlingQueensideKingdownRookup => whiteCastlingQueensideKingdownRookupRun
  | .whiteCastlingKingsideKingupRookdown => whiteCastlingKingsideKingupRookdownRun
  | .whiteCastlingQueensideKingupRookdown => whiteCastlingQueensideKingupRookdownRun
  | .black => blackRun
  | .blackMove => blackMoveRun
  | .blackCapture => blackCaptureRun
  | .blackEnemyCapture => blackEnemyCaptureRun
  | .blackCastling => blackCastlingRun pinChange
  | .blackCastlingKingsideKingdown => blackCastlingKingsideKingdownRun
  | .blackCastlingQueensideKingdown => blackCastlingQueensideKingdownRun
  | .blackCastlingKingsideKingupRookup => blackCastlingKingsideKingupRookupRun
  | .blackCastlingQueensideKingupRookup => blackCastlingQueensideKingupRookupRun
  | .blackCastlingKingsideKingdownRookup => blackCastlingKingsideKingdownRookupRun
  | .blackCastlingQueensideKingdownRookup => blackCastlingQueensideKingdownRookupRun
  | .blackCastlingKingsideKingupRookdown => blackCastlingKingsideKingupRookdownRun
  | .blackCastlingQueensideKingupRookdown => blackCastlingQueensideKingupRookdownRun
  | .error => errorRun

def smfRunState (pinChange : ChessState → Nat → Bool → Except Fault ChessState)
    (st : ChessState) : Except Fault ChessState :=
  if st.ctx.terminate then .ok st
  else match st.ctx.current with
    | none => .error .noState
    | some s => smakStates pinChange s st

/-! The entry points. -/

def latch (st : ChessState) (pinNumber : Nat) (isUp : Bool) : Except Fault ChessState := do
  let st := { st with pinNumber := pinNumber, isUp := isUp, isDown := !isUp }
  let piece ← st.read st.pinNumber
  let isEmptySquare := piece == .emptySquare
  let st := { st with
    piece := piece
    isEmptySquare := isEmptySquare
    isBlackPiece := !isEmptySquare && !decide (piece.toChar < 'a')
    isWhitePiece := !isEmptySquare && !decide (piece.toChar > 'a') }
  if st.stateVal == .black || st.stateVal == .white then
    return { st with canCastle := ← canCastle st st.stateVal st.pinNumber }
  else
    return st

/-- The body of `pin_change`, where `recur` stands for `pin_change` itself. -/
def pinChangeWith (recur : ChessState → Nat → Bool → Except Fault ChessState)
    (st : ChessState) (pinNumber : Nat) (isUp : Bool) : Except Fault ChessState := do
  let st ← latch st pinNumber isUp
  if !st.isStarted then
    smfRunState recur (smfSetInitial { st with isStarted := true } .white)
  else
    smfRunState recur st

/-- `pin_change` as a castling state calls it, which has just set the state to
`white_move` or `black_move`. Neither calls `pin_change` again. -/
def pinChangeNested : ChessState → Nat → Bool → Except Fault ChessState :=
  pinChangeWith fun _ _ _ => .error .recursion

def pinChange : ChessState → Nat → Bool → Except Fault ChessState :=
  pinChangeWith pinChangeNested

def resetFsm (st : ChessState) : ChessState :=
  { smfSetTerminate st with
    board := startingBoard
    stateVal := .white
    right := fun _ _ => true
    enPassant := false
    enPassantSquare := 0
    plySincePonr := 0
    ply := 0
    x := 0
    y := 0
    isDown := true
    isUp := false
    isEmptySquare := false
    isWhitePiece := false
    isBlackPiece := false
    isStarted := false
    piece := .emptySquare
    directToError := false }

structure Event where
  pinNumber : Nat
  isUp : Bool
  deriving DecidableEq, Repr

abbrev lift (s : Nat) : Event := ⟨s, true⟩

abbrev put (s : Nat) : Event := ⟨s, false⟩

def step (st : ChessState) (e : Event) : Except Fault ChessState :=
  pinChange st e.pinNumber e.isUp

end SmakChess
