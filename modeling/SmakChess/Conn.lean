import SmakChess.PbMessages
import SmakChess.Storage

/-! The posts of `smak_conn.c`. All of them collect their response with one
event handler, whose write position is shared and outlives a request. -/

namespace SmakChess

open Pb (SmakChessMoveT)

def httpBufferSize : Nat := 4096

/-- The events of a request that `smak_http_event_handler_post` acts on. -/
inductive HttpEvent
  | onData (data : List UInt8)
  | onFinish
  deriving DecidableEq, Repr

def memcpy (buf : List UInt8) (i : Nat) (data : List UInt8) : List UInt8 :=
  buf.take i ++ data ++ buf.drop (i + data.length)

/-- The static `idx`, and a response buffer of `httpBufferSize + 1` bytes. -/
def smakHttpEventHandlerPost (s : Nat × List UInt8) : HttpEvent → Nat × List UInt8
  | .onData data =>
    if httpBufferSize - s.1 < data.length then s
    else (s.1 + data.length, memcpy s.2 s.1 data)
  | .onFinish => (0, s.2.set s.1 0)

def perform (s : Nat × List UInt8) (events : List HttpEvent) : Nat × List UInt8 :=
  events.foldl smakHttpEventHandlerPost s

def cString (buf : List UInt8) : List UInt8 := buf.takeWhile (· ≠ 0)

/-- The three static response buffers are apart; the game's is read. -/
structure Conn where
  idx : Nat
  gameBuf : List UInt8
  moveBuf : List UInt8
  storage : Storage

def emptyBuf : List UInt8 := List.replicate (httpBufferSize + 1) 0

def Conn.boot (nvs : Option UInt64) : Conn where
  idx := 0
  gameBuf := emptyBuf
  moveBuf := emptyBuf
  storage := smakStorageInit nvs

/-- What `cJSON` finds under `"id"` in a text, if the text parses. -/
abbrev GameIdReader := List UInt8 → Option UInt64

def smakHttpPostGame (readId : GameIdReader) (s : Conn) (events : List HttpEvent) : Conn :=
  let r := perform (s.idx, s.gameBuf) events
  let s := { s with idx := r.1, gameBuf := r.2 }
  match readId (cString r.2) with
  | none => s
  | some id =>
    if id = smakGameidCurrentGet .works s.storage then s
    else { s with storage := (smakGameidStore .works s.storage id).2 }

def moveTypeStrings : List String := ["enpassant", "castling", "promotion", "normal"]

def toupper (c : UInt8) : UInt8 := if 97 ≤ c ∧ c ≤ 122 then c - 32 else c

/-- `struct smak_json_move_obj`. `moveType` is nothing when the index is
outside the table. -/
structure SmakJsonMoveObj where
  id : UInt64
  ply : UInt32
  fromSquare : UInt16
  toSquare : UInt16
  piece : UInt8
  captured : UInt8
  moveType : Option String
  deriving DecidableEq, Repr

def smakJsonMoveObjInternalGetFromPb (s : Storage) (mv : SmakChessMoveT) : SmakJsonMoveObj where
  id := smakGameidCurrentGet .works s
  ply := mv.ply
  fromSquare := mv.fromSquare.toUInt16
  toSquare := mv.toSquare.toUInt16
  piece := toupper (mv.piece.bytes.headD 0)
  captured := toupper (mv.captured.bytes.headD 0)
  moveType := moveTypeStrings[mv.moveType.toNat]?

/-- What is posted to `/moves`, and the state after the exchange. -/
def smakHttpPostMove (s : Conn) (mv : SmakChessMoveT) (events : List HttpEvent) :
    SmakJsonMoveObj × Conn :=
  let r := perform (s.idx, s.moveBuf) events
  (smakJsonMoveObjInternalGetFromPb s.storage mv, { s with idx := r.1, moveBuf := r.2 })

/-! The messages of the board with what becomes of their requests. -/

/-- A new game comes with the game the server created for it, if any. -/
inductive BoardMessage
  | newGame (created : Option UInt64) (events : List HttpEvent)
  | move (mv : SmakChessMoveT) (events : List HttpEvent)
  deriving DecidableEq, Repr

def handleMessage (readId : GameIdReader) (s : Conn) : BoardMessage → Conn
  | .newGame _ events => smakHttpPostGame readId s events
  | .move mv events => (smakHttpPostMove s mv events).2

def handleMessages (readId : GameIdReader) (s : Conn) (ms : List BoardMessage) : Conn :=
  ms.foldl (handleMessage readId) s

end SmakChess
