import SmakChess.Protobuf

/-! The messages between the board and the ESP: `smak.pb.h`, what the code
relies on nanopb for, and a codec that is the wire format itself. -/

namespace SmakChess

open Protobuf

/-- What counts in a `PB_BYTES_ARRAY_T(1)`, which has a byte more that fills it up. -/
structure PbBytes where
  bytes : List UInt8
  fits : bytes.length ≤ 2
  deriving DecidableEq, Repr

def PbBytes.empty : PbBytes := ⟨[], Nat.zero_le 2⟩

def PbBytes.single (b : UInt8) : PbBytes := ⟨[b], Nat.le_succ 1⟩

/-- `smak_chess_move_t`. The enumeration is open. -/
structure SmakChessMove where
  id : UInt64
  ply : UInt32
  fromSquare : UInt32
  toSquare : UInt32
  piece : PbBytes
  captured : PbBytes
  moveType : UInt32
  deriving DecidableEq, Repr

def SmakChessMove.zero : SmakChessMove := ⟨0, 0, 0, 0, .empty, .empty, 0⟩

/-- `smak_message_t`, whose `which_board_msg` is zero in `unset`. -/
inductive SmakMessage
  | unset
  | move (mv : SmakChessMove)
  | newGame (isNewGame : Bool)
  deriving DecidableEq, Repr

def smakMessageSize : Nat := 39

/-- `pb_encode` and `pb_decode` for `smak_message_t`. -/
structure Nanopb where
  encode : SmakMessage → List UInt8
  decode : List UInt8 → Option SmakMessage
  decode_encode : ∀ m, decode (encode m) = some m
  encode_ne_nil : ∀ m, m ≠ .unset → encode m ≠ []
  length_encode_le : ∀ bs m, decode bs = some m → (encode m).length ≤ bs.length

/-! The wire format of `smak.proto`: a field is left out when it is zero. -/

def uintField (number n : Nat) : List WireField := if n = 0 then [] else [⟨number, .varint n⟩]

def bytesField (number : Nat) (b : PbBytes) : List WireField :=
  if b.bytes = [] then [] else [⟨number, .bytes b.bytes⟩]

def SmakChessMove.fields (mv : SmakChessMove) : List WireField :=
  uintField 1 mv.id.toNat ++ uintField 2 mv.ply.toNat ++ uintField 3 mv.fromSquare.toNat ++
    uintField 4 mv.toSquare.toNat ++ bytesField 5 mv.piece ++ bytesField 6 mv.captured ++
    uintField 7 mv.moveType.toNat

def uintOf (f : WireField) (bits : Nat) : Option Nat :=
  match f.value with
  | .varint n => if n < 2 ^ bits then some n else none
  | _ => none

def bytesOf (f : WireField) : Option PbBytes :=
  match f.value with
  | .bytes bs => if h : bs.length ≤ 2 then some ⟨bs, h⟩ else none
  | _ => none

def SmakChessMove.set (mv : SmakChessMove) (f : WireField) : Option SmakChessMove :=
  match f.number with
  | 1 => (uintOf f 64).map fun n => { mv with id := UInt64.ofNat n }
  | 2 => (uintOf f 32).map fun n => { mv with ply := UInt32.ofNat n }
  | 3 => (uintOf f 32).map fun n => { mv with fromSquare := UInt32.ofNat n }
  | 4 => (uintOf f 32).map fun n => { mv with toSquare := UInt32.ofNat n }
  | 5 => (bytesOf f).map fun b => { mv with piece := b }
  | 6 => (bytesOf f).map fun b => { mv with captured := b }
  | 7 => (uintOf f 32).map fun n => { mv with moveType := UInt32.ofNat n }
  | _ => some mv

def newGameFields (isNewGame : Bool) : List WireField := uintField 1 isNewGame.toNat

def setNewGame (isNewGame : Bool) (f : WireField) : Option Bool :=
  match f.number with
  | 1 => (uintOf f 64).map fun n => n != 0
  | _ => some isNewGame

def SmakMessage.fields : SmakMessage → List WireField
  | .unset => []
  | .move mv => [⟨1, .bytes (encodeFields mv.fields)⟩]
  | .newGame b => [⟨2, .bytes (encodeFields (newGameFields b))⟩]

/-- A second occurrence of the same member is merged into the first, and one
of the other member takes its place. -/
def SmakMessage.set (m : SmakMessage) (f : WireField) : Option SmakMessage :=
  match f.number, f.value with
  | 1, .bytes bs =>
    let mv := match m with
      | .move mv => mv
      | _ => SmakChessMove.zero
    (decodeMessage SmakChessMove.set mv bs).map .move
  | 1, _ => none
  | 2, .bytes bs =>
    let b := match m with
      | .newGame b => b
      | _ => false
    (decodeMessage setNewGame b bs).map .newGame
  | 2, _ => none
  | _, _ => some m

def pbEncode (m : SmakMessage) : List UInt8 := encodeFields m.fields

def pbDecode (bs : List UInt8) : Option SmakMessage := decodeMessage SmakMessage.set .unset bs

/-! The laws of the codec. -/

section Fields

variable {mv mv' : SmakChessMove} {f : WireField} {k n bits : Nat} {b : PbBytes}

theorem valid_uintField (hk : 0 < k) (hk' : k < 8) (hn : n < 2 ^ 64) :
    ∀ f ∈ uintField k n, f.Valid := by
  intro f hf
  unfold uintField at hf
  split_ifs at hf with h0
  · cases hf
  · obtain rfl := by simpa using hf
    refine ⟨hk, ?_, hn⟩
    simp only [WireValue.wireType]
    omega

theorem valid_bytesField (hk : 0 < k) (hk' : k < 8) : ∀ f ∈ bytesField k b, f.Valid := by
  intro f hf
  have hfits := b.fits
  unfold bytesField at hf
  split_ifs at hf with h0
  · cases hf
  · obtain rfl := by simpa using hf
    refine ⟨hk, ?_, by dsimp only; omega⟩
    simp only [WireValue.wireType]
    omega

theorem valid_fields (mv : SmakChessMove) : ∀ f ∈ mv.fields, f.Valid := by
  have hid := mv.id.toNat_lt
  have hply := mv.ply.toNat_lt
  have hfrom := mv.fromSquare.toNat_lt
  have hto := mv.toSquare.toNat_lt
  have htype := mv.moveType.toNat_lt
  intro f hf
  simp only [SmakChessMove.fields, List.mem_append] at hf
  rcases hf with (((((hf | hf) | hf) | hf) | hf) | hf) | hf
  · exact valid_uintField (by decide) (by decide) (by omega) f hf
  · exact valid_uintField (by decide) (by decide) (by omega) f hf
  · exact valid_uintField (by decide) (by decide) (by omega) f hf
  · exact valid_uintField (by decide) (by decide) (by omega) f hf
  · exact valid_bytesField (by decide) (by decide) f hf
  · exact valid_bytesField (by decide) (by decide) f hf
  · exact valid_uintField (by decide) (by decide) (by omega) f hf

theorem foldlM_uintField (hset : mv.set ⟨k, .varint n⟩ = some mv') (h0 : n = 0 → mv = mv') :
    (uintField k n).foldlM SmakChessMove.set mv = some mv' := by
  unfold uintField
  split_ifs with hn
  · exact congrArg some (h0 hn)
  · simp [hset]

theorem bytesOf_bytes (k : Nat) (b : PbBytes) : bytesOf ⟨k, .bytes b.bytes⟩ = some b :=
  dif_pos b.fits

theorem foldlM_bytesField (hset : mv.set ⟨k, .bytes b.bytes⟩ = some mv')
    (h0 : b = .empty → mv = mv') :
    (bytesField k b).foldlM SmakChessMove.set mv = some mv' := by
  unfold bytesField
  split_ifs with hb
  · obtain ⟨bytes, fits⟩ := b
    obtain rfl : bytes = [] := hb
    exact congrArg some (h0 rfl)
  · simp [hset]

theorem foldlM_fields (mv : SmakChessMove) :
    mv.fields.foldlM SmakChessMove.set SmakChessMove.zero = some mv := by
  have hid := mv.id.toNat_lt
  have hply := mv.ply.toNat_lt
  have hfrom := mv.fromSquare.toNat_lt
  have hto := mv.toSquare.toNat_lt
  have htype := mv.moveType.toNat_lt
  obtain ⟨id, ply, fromSquare, toSquare, piece, captured, moveType⟩ := mv
  have h1 : (uintField 1 id.toNat).foldlM SmakChessMove.set SmakChessMove.zero =
      some ⟨id, 0, 0, 0, .empty, .empty, 0⟩ :=
    foldlM_uintField (by simp [SmakChessMove.set, uintOf, hid, SmakChessMove.zero])
      (fun h => by rw [show id = 0 from UInt64.toNat_inj.mp h, SmakChessMove.zero])
  have h2 : (uintField 2 ply.toNat).foldlM SmakChessMove.set ⟨id, 0, 0, 0, .empty, .empty, 0⟩ =
      some ⟨id, ply, 0, 0, .empty, .empty, 0⟩ :=
    foldlM_uintField (by simp [SmakChessMove.set, uintOf, hply])
      (fun h => by rw [show ply = 0 from UInt32.toNat_inj.mp h])
  have h3 : (uintField 3 fromSquare.toNat).foldlM SmakChessMove.set
      ⟨id, ply, 0, 0, .empty, .empty, 0⟩ = some ⟨id, ply, fromSquare, 0, .empty, .empty, 0⟩ :=
    foldlM_uintField (by simp [SmakChessMove.set, uintOf, hfrom])
      (fun h => by rw [show fromSquare = 0 from UInt32.toNat_inj.mp h])
  have h4 : (uintField 4 toSquare.toNat).foldlM SmakChessMove.set
      ⟨id, ply, fromSquare, 0, .empty, .empty, 0⟩ =
        some ⟨id, ply, fromSquare, toSquare, .empty, .empty, 0⟩ :=
    foldlM_uintField (by simp [SmakChessMove.set, uintOf, hto])
      (fun h => by rw [show toSquare = 0 from UInt32.toNat_inj.mp h])
  have h5 : (bytesField 5 piece).foldlM SmakChessMove.set
      ⟨id, ply, fromSquare, toSquare, .empty, .empty, 0⟩ =
        some ⟨id, ply, fromSquare, toSquare, piece, .empty, 0⟩ :=
    foldlM_bytesField (by simp [SmakChessMove.set, bytesOf_bytes]) (fun h => by rw [h])
  have h6 : (bytesField 6 captured).foldlM SmakChessMove.set
      ⟨id, ply, fromSquare, toSquare, piece, .empty, 0⟩ =
        some ⟨id, ply, fromSquare, toSquare, piece, captured, 0⟩ :=
    foldlM_bytesField (by simp [SmakChessMove.set, bytesOf_bytes]) (fun h => by rw [h])
  have h7 : (uintField 7 moveType.toNat).foldlM SmakChessMove.set
      ⟨id, ply, fromSquare, toSquare, piece, captured, 0⟩ =
        some ⟨id, ply, fromSquare, toSquare, piece, captured, moveType⟩ :=
    foldlM_uintField (by simp [SmakChessMove.set, uintOf, htype])
      (fun h => by rw [show moveType = 0 from UInt32.toNat_inj.mp h])
  simp only [SmakChessMove.fields, List.foldlM_append, h1, h2, h3, h4, h5, h6, h7,
    Option.bind_eq_bind, Option.bind_some]

end Fields

section Sizes

variable {mv mv' : SmakChessMove} {f : WireField} {k n c : Nat} {b : PbBytes}
  {m m' : SmakMessage}

theorem size_uintField_le (hk : k < 8) (hn : n < 128 ^ (c + 1)) :
    (encodeFields (uintField k n)).length ≤ c + 2 := by
  unfold uintField
  split_ifs
  · simp [encodeFields]
  · have hkey : (encodeVarint (8 * k + 0)).length ≤ 1 := putVarint_length_le (c := 0) (by omega)
    have hvalue : (encodeVarint n).length ≤ c + 1 := putVarint_length_le hn
    simp only [encodeFields, List.flatMap_cons, List.flatMap_nil, List.append_nil, WireField.encode,
      WireValue.wireType, WireValue.payload, List.length_append]
    omega

theorem size_bytesField_le (hk : k < 8) :
    (encodeFields (bytesField k b)).length ≤ b.bytes.length + 2 := by
  have hfits := b.fits
  unfold bytesField
  split_ifs
  · simp [encodeFields]
  · have hkey : (encodeVarint (8 * k + 2)).length ≤ 1 := putVarint_length_le (c := 0) (by omega)
    have hlen : (encodeVarint b.bytes.length).length ≤ 1 := putVarint_length_le (c := 0) (by omega)
    simp only [encodeFields, List.flatMap_cons, List.flatMap_nil, List.append_nil,
      WireField.encode, WireValue.wireType, WireValue.payload, List.length_append]
    omega

theorem encodeFields_fields_length (mv : SmakChessMove) : (encodeFields mv.fields).length =
    (encodeFields (uintField 1 mv.id.toNat)).length +
      (encodeFields (uintField 2 mv.ply.toNat)).length +
      (encodeFields (uintField 3 mv.fromSquare.toNat)).length +
      (encodeFields (uintField 4 mv.toSquare.toNat)).length +
      (encodeFields (bytesField 5 mv.piece)).length +
      (encodeFields (bytesField 6 mv.captured)).length +
      (encodeFields (uintField 7 mv.moveType.toNat)).length := by
  simp only [SmakChessMove.fields, encodeFields, List.flatMap_append, List.length_append]

theorem encodeFields_fields_length_le (mv : SmakChessMove) :
    (encodeFields mv.fields).length ≤ 43 := by
  have h1 := size_uintField_le (k := 1) (c := 9) (by decide) (n := mv.id.toNat)
    (by have := mv.id.toNat_lt; omega)
  have h2 := size_uintField_le (k := 2) (c := 4) (by decide) (n := mv.ply.toNat)
    (by have := mv.ply.toNat_lt; omega)
  have h3 := size_uintField_le (k := 3) (c := 4) (by decide) (n := mv.fromSquare.toNat)
    (by have := mv.fromSquare.toNat_lt; omega)
  have h4 := size_uintField_le (k := 4) (c := 4) (by decide) (n := mv.toSquare.toNat)
    (by have := mv.toSquare.toNat_lt; omega)
  have h5 := size_bytesField_le (k := 5) (b := mv.piece) (by decide)
  have h6 := size_bytesField_le (k := 6) (b := mv.captured) (by decide)
  have hpiece := mv.piece.fits
  have hcaptured := mv.captured.fits
  have h7 := size_uintField_le (k := 7) (c := 4) (by decide) (n := mv.moveType.toNat)
    (by have := mv.moveType.toNat_lt; omega)
  rw [encodeFields_fields_length]
  omega

theorem size_uintField_of_uintOf {bits : Nat} (h : uintOf f bits = some n) :
    n < 2 ^ bits ∧ (encodeFields (uintField f.number n)).length ≤ f.size := by
  obtain ⟨number, value⟩ := f
  cases value with
  | varint m =>
    simp only [uintOf] at h
    split_ifs at h with hm
    obtain rfl := by simpa using h
    refine ⟨hm, ?_⟩
    unfold uintField
    split_ifs <;> simp [encodeFields, WireField.size]
  | _ => cases h

theorem size_bytesField_of_bytesOf (h : bytesOf f = some b) :
    (encodeFields (bytesField f.number b)).length ≤ f.size := by
  obtain ⟨number, value⟩ := f
  cases value with
  | bytes bs =>
    simp only [bytesOf] at h
    split_ifs at h
    obtain rfl := by simpa using h
    unfold bytesField
    split_ifs <;> simp [encodeFields, WireField.size]
  | _ => cases h

theorem size_moveSet (h : mv.set f = some mv') :
    (encodeFields mv'.fields).length ≤ (encodeFields mv.fields).length + f.size := by
  rw [encodeFields_fields_length, encodeFields_fields_length]
  unfold SmakChessMove.set at h
  split at h
  case h_8 =>
    obtain rfl := by simpa using h
    omega
  case h_5 hk | h_6 hk =>
    obtain ⟨b, hb, rfl⟩ := Option.map_eq_some_iff.mp h
    have hsize := size_bytesField_of_bytesOf hb
    rw [hk] at hsize
    dsimp only
    omega
  case h_1 hk =>
    obtain ⟨n, hn, rfl⟩ := Option.map_eq_some_iff.mp h
    obtain ⟨hlt, hsize⟩ := size_uintField_of_uintOf hn
    rw [hk] at hsize
    simp only [UInt64.toNat_ofNat_of_lt' hlt]
    omega
  case h_2 hk | h_3 hk | h_4 hk | h_7 hk =>
    obtain ⟨n, hn, rfl⟩ := Option.map_eq_some_iff.mp h
    obtain ⟨hlt, hsize⟩ := size_uintField_of_uintOf hn
    rw [hk] at hsize
    simp only [UInt32.toNat_ofNat_of_lt' hlt]
    omega

theorem size_setNewGame {b b' : Bool} (h : setNewGame b f = some b') :
    (encodeFields (newGameFields b')).length ≤ (encodeFields (newGameFields b)).length + f.size := by
  unfold setNewGame at h
  split at h
  next hk =>
    obtain ⟨n, hn, rfl⟩ := Option.map_eq_some_iff.mp h
    obtain ⟨-, hsize⟩ := size_uintField_of_uintOf hn
    rw [hk] at hsize
    have hle : (encodeFields (newGameFields (n != 0))).length ≤
        (encodeFields (uintField 1 n)).length := by
      by_cases h0 : n = 0
      · simp [h0, newGameFields]
      · have hpos : (encodeVarint 1).length ≤ (encodeVarint n).length := by
          have h1 : (encodeVarint 1).length ≤ 1 := putVarint_length_le (c := 0) (by decide)
          have hn := encodeVarint_length_pos n
          omega
        have htrue : (n != 0) = true := by simpa using h0
        simp [htrue, h0, newGameFields, uintField, encodeFields, WireField.encode,
          WireValue.wireType, WireValue.payload, hpos]
    omega
  · obtain rfl := by simpa using h
    omega

theorem size_member {bs : List UInt8} (hk : k < 8) (hbs : bs.length < 128) :
    (WireField.mk k (.bytes bs)).size = 2 + bs.length := by
  have hkey : (encodeVarint (8 * k + 2)).length ≤ 1 := putVarint_length_le (c := 0) (by omega)
  have hkey' := encodeVarint_length_pos (8 * k + 2)
  have hlen : (encodeVarint bs.length).length ≤ 1 := putVarint_length_le (c := 0) (by omega)
  have hlen' := encodeVarint_length_pos bs.length
  simp only [WireField.size, WireField.encode, WireValue.wireType, WireValue.payload, List.length_append]
  omega

theorem le_size_member (k : Nat) (bs : List UInt8) :
    2 + bs.length ≤ (WireField.mk k (.bytes bs)).size := by
  have hkey := encodeVarint_length_pos (8 * k + 2)
  have hlen := encodeVarint_length_pos bs.length
  simp only [WireField.size, WireField.encode, WireValue.wireType, WireValue.payload, List.length_append]
  omega

theorem encodeFields_singleton (f : WireField) : encodeFields [f] = f.encode := by
  simp [encodeFields]

theorem encodeFields_newGameFields_length_le (b : Bool) :
    (encodeFields (newGameFields b)).length ≤ 2 := by
  cases b <;> decide

theorem pbEncode_move_length (mv : SmakChessMove) :
    (pbEncode (.move mv)).length = 2 + (encodeFields mv.fields).length := by
  have hle := encodeFields_fields_length_le mv
  rw [pbEncode, SmakMessage.fields, encodeFields_singleton]
  exact size_member (by decide) (by omega)

theorem pbEncode_newGame_length (b : Bool) :
    (pbEncode (.newGame b)).length = 2 + (encodeFields (newGameFields b)).length := by
  have hle := encodeFields_newGameFields_length_le b
  rw [pbEncode, SmakMessage.fields, encodeFields_singleton]
  exact size_member (by decide) (by omega)

theorem size_messageSet (h : m.set f = some m') :
    (pbEncode m').length ≤ (pbEncode m).length + f.size := by
  obtain ⟨k, v⟩ := f
  unfold SmakMessage.set at h
  split at h
  next bs hk hv =>
    obtain ⟨mv', hmv', rfl⟩ := Option.map_eq_some_iff.mp h
    have hgrow := size_le_of_decodeMessage (fun _ _ _ => size_moveSet) hmv'
    have hf := le_size_member k bs
    dsimp only at hk hv
    subst hk hv
    rw [pbEncode_move_length]
    cases m with
    | move mv =>
      rw [pbEncode_move_length]
      dsimp only at hgrow
      omega
    | _ =>
      have h0 : (encodeFields SmakChessMove.zero.fields).length = 0 := by decide
      dsimp only at hgrow
      omega
  · cases h
  next bs hk hv =>
    obtain ⟨b', hb', rfl⟩ := Option.map_eq_some_iff.mp h
    have hgrow := size_le_of_decodeMessage (fun _ _ _ => size_setNewGame) hb'
    have hf := le_size_member k bs
    dsimp only at hk hv
    subst hk hv
    rw [pbEncode_newGame_length]
    cases m with
    | newGame b =>
      rw [pbEncode_newGame_length]
      dsimp only at hgrow
      omega
    | _ =>
      have h0 : (encodeFields (newGameFields false)).length = 0 := by decide
      dsimp only at hgrow
      omega
  · cases h
  · obtain rfl := by simpa using h
    omega

end Sizes

theorem pbDecode_pbEncode (m : SmakMessage) : pbDecode (pbEncode m) = some m := by
  cases m with
  | unset => rfl
  | move mv =>
    have hlen := encodeFields_fields_length_le mv
    have hvalid : ∀ f ∈ (SmakMessage.move mv).fields, f.Valid := by
      intro f hf
      obtain rfl := by simpa [SmakMessage.fields] using hf
      exact ⟨Nat.one_pos, (by simp [WireValue.wireType]), by dsimp only; omega⟩
    have hmove : decodeMessage SmakChessMove.set SmakChessMove.zero (encodeFields mv.fields) =
        some mv := by rw [decodeMessage_encodeFields (valid_fields mv), foldlM_fields]
    rw [pbDecode, pbEncode, decodeMessage_encodeFields hvalid]
    simp [SmakMessage.fields, SmakMessage.set, hmove]
  | newGame b => cases b <;> decide

theorem pbEncode_ne_nil (m : SmakMessage) (h : m ≠ .unset) : pbEncode m ≠ [] := by
  cases m with
  | unset => exact absurd rfl h
  | move mv =>
    intro hnil
    have hlen := pbEncode_move_length mv
    rw [hnil, List.length_nil] at hlen
    omega
  | newGame b => cases b <;> decide

/-- The wire format does what the code expects of nanopb. -/
def wireFormat : Nanopb where
  encode := pbEncode
  decode := pbDecode
  decode_encode := pbDecode_pbEncode
  encode_ne_nil := pbEncode_ne_nil
  length_encode_le bs m h := by
    have hle := size_le_of_decodeMessage (fun _ _ _ => size_messageSet) h
    have h0 : (pbEncode .unset).length = 0 := rfl
    omega

end SmakChess
