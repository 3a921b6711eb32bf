import SmakChess.Protobuf

/-! The encoder of nanopb that the firmware carries: output streams that write
into a buffer or only count, and the fields of a message one after another. -/

namespace SmakChess.Pb

open Protobuf

/-- `size_t` has 32 bits. -/
def sizeT (n : Nat) : Nat := n % 4294967296

/-- `pb_ostream_t`: `callback` is `buf_write`, or NULL in a stream that only
counts, and `state` is what stands in front of the pointer of that name. -/
structure PbOstream where
  callback : Bool
  state : List UInt8
  maxSize : Nat
  bytesWritten : Nat
  errmsg : Option String
  deriving DecidableEq, Repr

namespace PbOstream

/-- `PB_OSTREAM_SIZING`. -/
def sizing : PbOstream := ⟨false, [], 0, 0, none⟩

def fromBuffer (bufsize : Nat) : PbOstream := ⟨true, [], bufsize, 0, none⟩

def bufWrite (s : PbOstream) (buf : List UInt8) (count : Nat) : PbOstream :=
  { s with state := s.state ++ buf.take count }

/-- `PB_RETURN_ERROR`. -/
def returnError (s : PbOstream) (msg : String) : Bool × PbOstream :=
  (false, { s with errmsg := s.errmsg.or (some msg) })

def wrote (s : PbOstream) (count : Nat) : PbOstream :=
  { s with bytesWritten := sizeT (s.bytesWritten + count) }

end PbOstream

/-- `if (!a(stream)) return false; return b(stream);` -/
def andThen (r : Bool × PbOstream) (b : PbOstream → Bool × PbOstream) : Bool × PbOstream :=
  if r.1 then b r.2 else (false, r.2)

def pbWrite (buf : List UInt8) (count : Nat) (s : PbOstream) : Bool × PbOstream :=
  if 0 < count ∧ s.callback = true then
    if sizeT (s.bytesWritten + count) < s.bytesWritten ∨
        s.maxSize < sizeT (s.bytesWritten + count) then
      s.returnError "stream full"
    else (true, (s.bufWrite buf count).wrote count)
  else (true, s.wrote count)

/-! Varints, in halves of 32 bits. -/

/-- The first loop of `pb_encode_varint_32`, with at most `k` turns left. -/
def lowGroups (high : Nat) : Nat → Nat → Nat → List UInt8 → List UInt8 × Nat
  | 0, _, byte, buffer => (buffer, byte)
  | k + 1, low, byte, buffer =>
    if low ≠ 0 ∨ high ≠ 0 then
      lowGroups high k (low >>> 7) (low &&& 0x7F) (buffer ++ [UInt8.ofNat (byte ||| 0x80)])
    else (buffer, byte)

/-- The second loop. -/
def highGroups (high byte : Nat) (buffer : List UInt8) : List UInt8 × Nat :=
  if 0 < high then
    highGroups (high >>> 7) (high &&& 0x7F) (buffer ++ [UInt8.ofNat (byte ||| 0x80)])
  else (buffer, byte)
termination_by high
decreasing_by
  rw [Nat.shiftRight_eq_div_pow]
  omega

def varint32Buffer (low high : Nat) : List UInt8 :=
  let (buffer, byte) := lowGroups high 4 (low >>> 7) (low &&& 0x7F) []
  let (buffer, byte) :=
    if high ≠ 0 then highGroups (high >>> 3) (byte ||| (high &&& 0x07) <<< 4) buffer
    else (buffer, byte)
  buffer ++ [UInt8.ofNat byte]

def pbEncodeVarint32 (low high : Nat) (s : PbOstream) : Bool × PbOstream :=
  let buffer := varint32Buffer low high
  pbWrite buffer buffer.length s

def pbEncodeVarint (value : Nat) (s : PbOstream) : Bool × PbOstream :=
  if value ≤ 0x7F then pbWrite [UInt8.ofNat value] 1 s
  else pbEncodeVarint32 (value % 4294967296) (value >>> 32) s

/-! Fields. -/

inductive PbWireType
  | varint
  | string
  deriving DecidableEq, Repr

def PbWireType.number : PbWireType → Nat
  | .varint => 0
  | .string => 2

def pbEncodeTag (wiretype : PbWireType) (fieldNumber : Nat) (s : PbOstream) : Bool × PbOstream :=
  pbEncodeVarint (fieldNumber <<< 3 ||| wiretype.number) s

def pbEncodeString (buffer : List UInt8) (size : Nat) (s : PbOstream) : Bool × PbOstream :=
  andThen (pbEncodeVarint size s) (pbWrite buffer size)

/-- `pb_bytes_array_t`. -/
structure PbBytesArray where
  size : Nat
  bytes : List UInt8
  deriving DecidableEq, Repr

/-- `offsetof(pb_bytes_array_t, bytes)`. -/
def bytesOffset : Nat := 2

/-- `pb_field_iter_t` on a static field, with what `pData` and `pSize` point to:
the singular fields, and the members of a oneof, which are submessages. -/
inductive PbFieldIter
  | bool (tag : Nat) (pData : Bool)
  | uvarint (tag dataSize pData : Nat)
  | bytes (tag dataSize : Nat) (pData : PbBytesArray)
  | oneof (tag pSize : Nat) (pData : List PbFieldIter)

def pbCheckProto3DefaultValue : PbFieldIter → Bool
  | .bool _ pData => !pData
  | .uvarint _ _ pData => pData == 0
  | .bytes _ _ pData => pData.size == 0
  | .oneof _ pSize _ => pSize == 0

def pbEncBool (pData : Bool) (s : PbOstream) : Bool × PbOstream := pbEncodeVarint pData.toNat s

def pbEncVarint (dataSize pData : Nat) (s : PbOstream) : Bool × PbOstream :=
  if dataSize = 1 ∨ dataSize = 2 ∨ dataSize = 4 ∨ dataSize = 8 then pbEncodeVarint pData s
  else s.returnError "invalid data_size"

def pbEncBytes (dataSize : Nat) (pData : PbBytesArray) (s : PbOstream) : Bool × PbOstream :=
  if dataSize - bytesOffset < pData.size then s.returnError "bytes size exceeded"
  else pbEncodeString pData.bytes pData.size s

/-- `pb_encode_submessage` after the length, where `encode` is `pb_encode` of the
submessage, and `size` what it has counted. -/
def submessageBody (encode : PbOstream → Bool × PbOstream) (size : Nat) (s : PbOstream) :
    Bool × PbOstream :=
  if s.callback = false then pbWrite [] size s
  else if s.maxSize < sizeT (s.bytesWritten + size) then s.returnError "stream full"
  else
    let (status, substream) := encode ⟨s.callback, s.state, size, 0, none⟩
    let s := { s with
      bytesWritten := sizeT (s.bytesWritten + substream.bytesWritten)
      state := substream.state
      errmsg := substream.errmsg }
    if substream.bytesWritten ≠ size then s.returnError "submsg size changed" else (status, s)

def pbEncodeSubmessage (encode : PbOstream → Bool × PbOstream) (s : PbOstream) :
    Bool × PbOstream :=
  let (status, substream) := encode .sizing
  if status then
    andThen (pbEncodeVarint substream.bytesWritten s) (submessageBody encode substream.bytesWritten)
  else (false, { s with errmsg := substream.errmsg })

mutual

/-- `encode_field`, with `encode_basic_field`. -/
def encodeField : PbFieldIter → PbOstream → Bool × PbOstream
  | .bool tag pData, s =>
    if pbCheckProto3DefaultValue (.bool tag pData) then (true, s)
    else andThen (pbEncodeTag .varint tag s) (pbEncBool pData)
  | .uvarint tag dataSize pData, s =>
    if pbCheckProto3DefaultValue (.uvarint tag dataSize pData) then (true, s)
    else andThen (pbEncodeTag .varint tag s) (pbEncVarint dataSize pData)
  | .bytes tag dataSize pData, s =>
    if pbCheckProto3DefaultValue (.bytes tag dataSize pData) then (true, s)
    else andThen (pbEncodeTag .string tag s) (pbEncBytes dataSize pData)
  | .oneof tag pSize pData, s =>
    if pSize ≠ tag then (true, s)
    else andThen (pbEncodeTag .string tag s) (pbEncodeSubmessage fun s => pbEncode pData s)

def pbEncode : List PbFieldIter → PbOstream → Bool × PbOstream
  | [], s => (true, s)
  | field :: fields, s => andThen (encodeField field s) fun s => pbEncode fields s

end

/-- `pb_get_encoded_size`, none when it returns false. -/
def pbGetEncodedSize (fields : List PbFieldIter) : Option Nat :=
  let (status, stream) := pbEncode fields .sizing
  if status then some stream.bytesWritten else none

section Varint

variable {high low byte k n m : Nat} {buffer : List UInt8}

theorem putVarint_group (hb : byte < 128) (hm : 0 < m) :
    putVarint (k + 1) (byte + 128 * m) = UInt8.ofNat (byte + 128) :: putVarint k m := by
  have hmod : (byte + 128 * m) % 128 = byte := by omega
  have hdiv : (byte + 128 * m) / 128 = m := by omega
  rw [putVarint, if_neg (by omega), hmod, hdiv]

theorem and_7F (n : Nat) : n &&& 0x7F = n % 128 := Nat.and_two_pow_sub_one_eq_mod n 7

theorem shiftRight_7 (n : Nat) : n >>> 7 = n / 128 := Nat.shiftRight_eq_div_pow n 7

theorem or_80 (h : byte < 128) : byte ||| 0x80 = byte + 128 := by
  have hor := Nat.two_pow_add_eq_or_of_lt (i := 7) h 1
  rw [Nat.or_comm]
  exact hor.symm.trans (Nat.add_comm ..)

/-- The last byte, without the continuation bit. -/
def closed (r : List UInt8 × Nat) : List UInt8 := r.1 ++ [UInt8.ofNat r.2]

theorem highGroups_eq (hb : byte < 128) (hn : byte + 128 * high < 128 ^ (k + 1)) :
    closed (highGroups high byte buffer) = buffer ++ putVarint k (byte + 128 * high) := by
  induction k generalizing high byte buffer with
  | zero =>
    obtain rfl : high = 0 := by omega
    simp [highGroups, closed, putVarint]
  | succ k ih =>
    rw [highGroups]
    by_cases h0 : high = 0
    · simp [h0, closed, putVarint, hb]
    · have hlt : high < 128 ^ (k + 1) := by
        rw [pow_succ'] at hn
        omega
      have hrest : high % 128 + 128 * (high / 128) = high := Nat.mod_add_div high 128
      rw [if_pos (by omega), and_7F, shiftRight_7, ih (by omega) (by omega), hrest, or_80 hb,
        putVarint_group hb (by omega), List.append_assoc, List.singleton_append]

/-- What `pb_encode_varint_32` does after its first loop. -/
def finish (high : Nat) (r : List UInt8 × Nat) : List UInt8 :=
  closed (if high ≠ 0 then highGroups (high >>> 3) (r.2 ||| (high &&& 0x07) <<< 4) r.1 else r)

theorem or_high (hb : byte < 16) : byte ||| (high &&& 0x07) <<< 4 = byte + 16 * (high % 8) := by
  have hand : high &&& 0x07 = high % 8 := Nat.and_two_pow_sub_one_eq_mod high 3
  have hor := Nat.two_pow_add_eq_or_of_lt (i := 4) hb (high % 8)
  rw [hand, Nat.shiftLeft_eq, Nat.or_comm, Nat.mul_comm (high % 8)]
  omega

theorem lowGroups_eq (hb : byte < 128) (hlow : byte + 128 * low < 16 * 128 ^ k)
    (hhigh : high < 2 ^ 32) : finish high (lowGroups high k low byte buffer) =
      buffer ++ putVarint (k + 5) (byte + 128 * low + 16 * 128 ^ k * high) := by
  induction k generalizing low byte buffer with
  | zero =>
    obtain rfl : low = 0 := by omega
    by_cases h0 : high = 0
    · simp [lowGroups, finish, h0, closed, putVarint, hb]
    · have h3 : high >>> 3 = high / 8 := Nat.shiftRight_eq_div_pow high 3
      rw [lowGroups, finish, if_pos h0, or_high (by omega), h3,
        highGroups_eq (k := 5) (by omega) (by omega)]
      congr 2
      omega
  | succ k ih =>
    rw [lowGroups]
    by_cases h0 : low = 0 ∧ high = 0
    · obtain ⟨rfl, rfl⟩ := h0
      simp [finish, closed, putVarint, hb]
    · have hpow : 16 * 128 ^ (k + 1) = 128 * (16 * 128 ^ k) := by ring
      have hsum : byte + 128 * low + 16 * 128 ^ (k + 1) * high =
          byte + 128 * (low + 16 * 128 ^ k * high) := by ring
      have hpos : 0 < low + 16 * 128 ^ k * high := by
        by_cases hlow0 : low = 0
        · have hhigh0 : 0 < high := by omega
          have hbase : 0 < 16 * 128 ^ k := by omega
          exact Nat.add_pos_right low (Nat.mul_pos hbase hhigh0)
        · omega
      have hrest : low % 128 + 128 * (low / 128) = low := Nat.mod_add_div low 128
      rw [if_pos (by omega), and_7F, shiftRight_7, ih (by omega) (by omega), hrest, or_80 hb, hsum,
        show k + 1 + 5 = k + 5 + 1 by omega, putVarint_group hb hpos, List.append_assoc,
        List.singleton_append]

theorem varint32Buffer_eq (hn : n < 2 ^ 64) :
    varint32Buffer (n % 4294967296) (n >>> 32) = encodeVarint n := by
  have hshift : n >>> 32 = n / 4294967296 := Nat.shiftRight_eq_div_pow n 32
  have h : finish (n / 4294967296)
      (lowGroups (n / 4294967296) 4 (n % 4294967296 / 128) (n % 4294967296 % 128) []) = _ :=
    lowGroups_eq (by omega) (by omega) (by omega)
  have hsum : n % 4294967296 % 128 + 128 * (n % 4294967296 / 128) +
      16 * 128 ^ 4 * (n / 4294967296) = n := by omega
  rw [hsum, List.nil_append] at h
  rw [hshift, encodeVarint, ← h, varint32Buffer, and_7F, shiftRight_7]
  rfl

end Varint

end SmakChess.Pb
