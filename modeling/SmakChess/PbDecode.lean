import SmakChess.PbEncode

/-! The decoder of nanopb that the firmware carries: input streams and their
substreams, the search for a field, and the loop over the fields of a message. -/

namespace SmakChess.Pb

/-- `pb_istream_t` over a buffer: `state` is the memory from the pointer on, and
goes on behind the message. -/
structure PbIstream where
  state : List UInt8
  bytesLeft : Nat
  deriving DecidableEq, Repr

/-- The message of a function that returns false, and a read behind the memory. -/
inductive PbError
  | errmsg (msg : String)
  | overread
  deriving DecidableEq, Repr

/-- What is read from a stream, which it leaves at another place. -/
abbrev Read := StateT PbIstream (Except PbError)

/-- `PB_RETURN_ERROR`. -/
def returnError {α : Type} (msg : String) : Read α := fun _ => .error (.errmsg msg)

def pbRead (count : Nat) : Read (List UInt8) := fun s =>
  if count = 0 then .ok ([], s)
  else if s.bytesLeft < count then .error (.errmsg "end-of-stream")
  else if s.state.length < count then .error .overread
  else .ok (s.state.take count, ⟨s.state.drop count, s.bytesLeft - count⟩)

def pbReadbyte : Read UInt8 := fun s =>
  if s.bytesLeft = 0 then .error (.errmsg "end-of-stream")
  else
    match s.state with
    | [] => .error .overread
    | byte :: state => .ok (byte, ⟨state, s.bytesLeft - 1⟩)

/-! Varints. -/

/-- One turn of the loop of `pb_decode_varint32_eof`: the bits above the 32nd may
be zero, or the extension of a negative number. -/
def varint32Step (bitpos result byte : Nat) : Read Nat :=
  if 32 ≤ bitpos then
    let signExtension := if bitpos < 63 then 0xFF else 0x01
    if 64 ≤ bitpos ∨ ¬ (byte &&& 0x7F = 0 ∨ result >>> 31 ≠ 0 ∧ byte = signExtension) then
      returnError "varint overflow"
    else pure result
  else if bitpos = 28 then
    if byte &&& 0x70 ≠ 0 ∧ byte &&& 0x78 ≠ 0x78 then returnError "varint overflow"
    else pure (result ||| (byte &&& 0x0F) <<< bitpos)
  else pure (result ||| (byte &&& 0x7F) <<< bitpos)

/-- The loop, which ends within ten turns. -/
def varint32Loop : Nat → Nat → Nat → Read Nat
  | 0, _, _ => returnError "varint overflow"
  | k + 1, bitpos, result => do
    let byte ← pbReadbyte
    let result ← varint32Step bitpos result byte.toNat
    if byte.toNat &&& 0x80 ≠ 0 then varint32Loop k (bitpos + 7) result else pure result

/-- `pb_decode_varint32_eof` after its first byte. -/
def varint32Rest (byte : Nat) : Read Nat :=
  if byte &&& 0x80 = 0 then pure byte else varint32Loop 10 7 (byte &&& 0x7F)

/-- An error comes with what it leaves in `eof`. -/
def pbDecodeVarint32Eof (s : PbIstream) : Except (PbError × Bool) (Nat × PbIstream) :=
  match pbReadbyte s with
  | .error e => .error (e, s.bytesLeft == 0)
  | .ok (byte, s) => (varint32Rest byte.toNat s).mapError fun e => (e, false)

def pbDecodeVarint32 : Read Nat := fun s => (pbDecodeVarint32Eof s).mapError Prod.fst

/-- The loop of `pb_decode_varint`, which ends within ten turns. -/
def varintLoop : Nat → Nat → Nat → Read Nat
  | 0, _, _ => returnError "varint overflow"
  | k + 1, bitpos, result => do
    let byte ← pbReadbyte
    if 63 ≤ bitpos ∧ byte.toNat &&& 0xFE ≠ 0 then returnError "varint overflow"
    else
      let result := result ||| (byte.toNat &&& 0x7F) <<< bitpos
      if byte.toNat &&& 0x80 ≠ 0 then varintLoop k (bitpos + 7) result else pure result

def pbDecodeVarint : Read Nat := varintLoop 10 0 0

/-! What is not known is skipped. -/

/-- The loop of `pb_skip_varint`, which ends with the stream. -/
def skipVarintLoop : Nat → Read Unit
  | 0 => returnError "end-of-stream"
  | k + 1 => do
    let byte ← pbRead 1
    if byte.any fun b => b.toNat &&& 0x80 != 0 then skipVarintLoop k else pure ()

def pbSkipVarint : Read Unit := fun s => skipVarintLoop (s.bytesLeft + 1) s

def pbSkipBytes (count : Nat) : Read Unit := do
  let _ ← pbRead count
  pure ()

def pbSkipString : Read Unit := do
  let length ← pbDecodeVarint32
  pbSkipBytes length

/-- The wire type and the tag. -/
def pbDecodeTag (s : PbIstream) : Except (PbError × Bool) ((Nat × Nat) × PbIstream) :=
  (pbDecodeVarint32Eof s).map fun r => ((r.1 &&& 7, r.1 >>> 3), r.2)

def pbSkipField (wireType : Nat) : Read Unit :=
  match wireType with
  | 0 => pbSkipVarint
  | 1 => pbSkipBytes 8
  | 2 => pbSkipString
  | 5 => pbSkipBytes 4
  | _ => returnError "invalid wire_type"

/-! Substreams. -/

/-- The substream. The stream itself is left behind the string as far as
`bytes_left` is concerned, and before it with its pointer. -/
def pbMakeStringSubstream : Read PbIstream := do
  let size ← pbDecodeVarint32
  fun s =>
    if s.bytesLeft < size then .error (.errmsg "parent stream too short")
    else .ok (⟨s.state, size⟩, ⟨s.state, s.bytesLeft - size⟩)

def pbCloseStringSubstream (substream : PbIstream) : Read Unit := fun s => do
  let (_, substream) ← pbRead substream.bytesLeft substream
  .ok ((), ⟨substream.state, s.bytesLeft⟩)

/-- What is read from a string, through a substream. -/
def fromSubstream {α : Type} (inner : Read α) : Read α := fun s => do
  let (substream, s) ← pbMakeStringSubstream s
  let (a, substream) ← inner substream
  let (_, s) ← pbCloseStringSubstream substream s
  .ok (a, s)

/-! The contents of a field. -/

def pbDecodeBool : Read Bool := do
  let value ← pbDecodeVarint32
  pure (value != 0)

/-- How many values `data_size` bytes hold. -/
def uintSize : Nat → Option Nat
  | 1 => some 256
  | 2 => some 65536
  | 4 => some 4294967296
  | 8 => some 18446744073709551616
  | _ => none

def pbDecVarint (dataSize : Nat) : Read Nat := do
  let value ← pbDecodeVarint
  match uintSize dataSize with
  | none => returnError "invalid data_size"
  | some size => if value % size ≠ value then returnError "integer too large" else pure value

/-- `PB_SIZE_MAX`. -/
def pbSizeMax : Nat := 65535

def pbDecBytes (dataSize : Nat) (dest : PbBytesArray) : Read PbBytesArray := do
  let size ← pbDecodeVarint32
  if pbSizeMax < size then returnError "bytes overflow"
  else if dataSize < size + bytesOffset then returnError "bytes overflow"
  else
    let bytes ← pbRead size
    pure ⟨size, bytes ++ dest.bytes.drop size⟩

/-! Messages. -/

/-- A field of a message that is held in `σ`, with `decode_field` for its type. -/
structure PbField (σ : Type) where
  tag : Nat
  decodeField : Nat → σ → Read σ

/-- `pb_msgdesc_t`, and what `pb_message_set_to_defaults` does to the message. -/
structure PbMsgdesc (σ : Type) where
  fields : List (PbField σ)
  setToDefaults : σ → σ

namespace PbMsgdesc

variable {σ : Type}

def tags (desc : PbMsgdesc σ) : List Nat := desc.fields.map PbField.tag

/-- `PB_GEN_LARGEST_TAG` takes the last one. -/
def largestTag (desc : PbMsgdesc σ) : Nat := desc.tags.getLastD 0

end PbMsgdesc

def advanceIterator (fieldCount index : Nat) : Nat :=
  if fieldCount ≤ index + 1 then 0 else index + 1

/-- The loop of `pb_field_iter_find`, which comes back to `start`. -/
def findLoop (tags : List Nat) (tag start : Nat) : Nat → Nat → Bool × Nat
  | 0, index => (false, index)
  | k + 1, index =>
    let index := advanceIterator tags.length index
    if tags.getD index 0 &&& 0x3F = tag &&& 0x3F ∧ tags.getD index 0 = tag then (true, index)
    else if index = start then (false, index)
    else findLoop tags tag start k index

/-- Whether there is a field of the tag, and the index of the iterator after it. -/
def pbFieldIterFind (tags : List Nat) (largestTag index tag : Nat) : Bool × Nat :=
  if tags.getD index 0 = tag then (true, index)
  else if largestTag < tag then (false, index)
  else findLoop tags tag index tags.length (if tag < tags.getD index 0 then tags.length else index)

/-- What a turn of the loop of `pb_decode_inner` does after the tag: it leaves the
index of the iterator and the message. -/
def decodeTurn {σ : Type} (desc : PbMsgdesc σ) (index : Nat) (dest : σ) (wireType tag : Nat) :
    Read (Nat × σ) :=
  if tag = 0 then returnError "zero tag"
  else
    let (found, index) := pbFieldIterFind desc.tags desc.largestTag index tag
    match found, desc.fields[index]? with
    | true, some field => do
      let dest ← field.decodeField wireType dest
      pure (index, dest)
    | _, _ => do
      pbSkipField wireType
      pure (index, dest)

/-- The loop, with at most `k` turns left. Every turn takes a byte of the stream. -/
def decodeLoop {σ : Type} (desc : PbMsgdesc σ) : Nat → Nat → σ → Read σ
  | 0, _, dest => pure dest
  | k + 1, index, dest => fun s =>
    if s.bytesLeft = 0 then .ok (dest, s)
    else
      match pbDecodeTag s with
      | .error (e, eof) => if eof then .ok (dest, s) else .error e
      | .ok ((wireType, tag), s) => do
        let ((index, dest), s) ← decodeTurn desc index dest wireType tag s
        decodeLoop desc k index dest s

/-- With `noinit`, the message is not set to its defaults first. -/
def pbDecodeInner {σ : Type} (desc : PbMsgdesc σ) (noinit : Bool) (dest : σ) : Read σ := fun s =>
  decodeLoop desc s.bytesLeft 0 (if noinit then dest else desc.setToDefaults dest) s

def pbDecode {σ : Type} (desc : PbMsgdesc σ) (dest : σ) : Read σ := pbDecodeInner desc false dest

/-- `pb_dec_submessage`, into a static field. -/
def pbDecSubmessage {τ : Type} (desc : PbMsgdesc τ) (dest : τ) : Read τ :=
  fromSubstream (pbDecodeInner desc true dest)

namespace PbField

variable {σ τ : Type}

/-- `decode_basic_field`: the wire type that the type of the field has, and its
contents. -/
def basic (wire tag : Nat) (content : σ → Read σ) : PbField σ where
  tag := tag
  decodeField wireType dest :=
    if wireType ≠ wire then returnError "wrong wire type" else content dest

def bool (tag : Nat) (pData : σ → Bool → σ) : PbField σ :=
  basic 0 tag fun dest => do
    let value ← pbDecodeBool
    pure (pData dest value)

def uvarint (tag dataSize : Nat) (pData : σ → Nat → σ) : PbField σ :=
  basic 0 tag fun dest => do
    let value ← pbDecVarint dataSize
    pure (pData dest value)

def bytes (tag dataSize : Nat) (get : σ → PbBytesArray) (pData : σ → PbBytesArray → σ) : PbField σ :=
  basic 2 tag fun dest => do
    let value ← pbDecBytes dataSize (get dest)
    pure (pData dest value)

/-- A member of a oneof: `get` is the member, which is set to zero when the oneof
holds another one. -/
def oneof (tag : Nat) (desc : PbMsgdesc τ) (get : σ → τ) (pData : σ → τ → σ) : PbField σ :=
  basic 2 tag fun dest => do
    let value ← pbDecSubmessage desc (get dest)
    pure (pData dest value)

end PbField

end SmakChess.Pb
