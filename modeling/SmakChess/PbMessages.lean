import SmakChess.Messages
import SmakChess.PbWire
import SmakChess.PbWrites

/-! `smak.pb.h` for the encoder and the decoder that the firmware carries. -/

namespace SmakChess.Pb

open Protobuf

/-- `smak_chess_move_t`. -/
structure SmakChessMoveT where
  id : UInt64
  ply : UInt32
  fromSquare : UInt32
  toSquare : UInt32
  piece : PbBytesArray
  captured : PbBytesArray
  moveType : UInt32
  deriving DecidableEq, Repr

def SmakChessMoveT.zero : SmakChessMoveT := ⟨0, 0, 0, 0, ⟨0, [0, 0]⟩, ⟨0, [0, 0]⟩, 0⟩

/-- `smak_message_t`, with the member that `which_board_msg` names. -/
inductive SmakMessageT
  | unset
  | move (mv : SmakChessMoveT)
  | newGame (isNewGame : Bool)
  deriving DecidableEq, Repr

namespace SmakMessageT

def whichBoardMsg : SmakMessageT → Nat
  | .unset => 0
  | .move _ => 1
  | .newGame _ => 2

/-- `board_msg.move`, set to zero when the union holds another member. -/
def boardMove : SmakMessageT → SmakChessMoveT
  | .move mv => mv
  | _ => .zero

/-- `board_msg.new_game.is_new_game`. -/
def isNewGame : SmakMessageT → Bool
  | .newGame b => b
  | _ => false

end SmakMessageT

/-- `sizeof` of the byte arrays: the size, a byte, and one more that fills the
array up. -/
def bytesArraySize : Nat := 4

def smakChessMoveMsg : PbMsgdesc SmakChessMoveT where
  fields := [
    .uvarint 1 8 fun mv n => { mv with id := UInt64.ofNat n },
    .uvarint 2 4 fun mv n => { mv with ply := UInt32.ofNat n },
    .uvarint 3 4 fun mv n => { mv with fromSquare := UInt32.ofNat n },
    .uvarint 4 4 fun mv n => { mv with toSquare := UInt32.ofNat n },
    .bytes 5 bytesArraySize SmakChessMoveT.piece fun mv b => { mv with piece := b },
    .bytes 6 bytesArraySize SmakChessMoveT.captured fun mv b => { mv with captured := b },
    .uvarint 7 4 fun mv n => { mv with moveType := UInt32.ofNat n }]
  setToDefaults _ := .zero

def smakNewGameMsg : PbMsgdesc Bool where
  fields := [.bool 1 fun _ b => b]
  setToDefaults _ := false

def smakMessageMsg : PbMsgdesc SmakMessageT where
  fields := [
    .oneof 1 smakChessMoveMsg SmakMessageT.boardMove fun _ mv => .move mv,
    .oneof 2 smakNewGameMsg SmakMessageT.isNewGame fun _ b => .newGame b]
  setToDefaults _ := .unset

/-- What `pb_field_iter_t` goes through in `smak_chess_move_t`. -/
def SmakChessMoveT.iter (mv : SmakChessMoveT) : List PbFieldIter :=
  [.uvarint 1 8 mv.id.toNat, .uvarint 2 4 mv.ply.toNat, .uvarint 3 4 mv.fromSquare.toNat,
    .uvarint 4 4 mv.toSquare.toNat, .bytes 5 bytesArraySize mv.piece,
    .bytes 6 bytesArraySize mv.captured, .uvarint 7 4 mv.moveType.toNat]

def SmakMessageT.iter (m : SmakMessageT) : List PbFieldIter :=
  [.oneof 1 m.whichBoardMsg m.boardMove.iter,
    .oneof 2 m.whichBoardMsg [.bool 1 m.isNewGame]]

/-! Any message at all may be decoded. -/

theorem reads_smakChessMoveMsg : smakChessMoveMsg.Reads := by
  intro field hfield
  simp only [smakChessMoveMsg, List.mem_cons, List.not_mem_nil, or_false] at hfield
  rcases hfield with rfl | rfl | rfl | rfl | rfl | rfl | rfl
  · exact reads_uvarint _ _ _
  · exact reads_uvarint _ _ _
  · exact reads_uvarint _ _ _
  · exact reads_uvarint _ _ _
  · exact reads_bytes _ _ _ _
  · exact reads_bytes _ _ _ _
  · exact reads_uvarint _ _ _

theorem ordered_smakChessMoveMsg : smakChessMoveMsg.Ordered := ⟨by decide, by decide⟩

theorem reads_smakNewGameMsg : smakNewGameMsg.Reads := by
  intro field hfield
  obtain rfl := by simpa [smakNewGameMsg] using hfield
  exact reads_bool _ _

theorem ordered_smakNewGameMsg : smakNewGameMsg.Ordered := ⟨by decide, by decide⟩

theorem reads_smakMessageMsg : smakMessageMsg.Reads := by
  intro field hfield
  simp only [smakMessageMsg, List.mem_cons, List.not_mem_nil, or_false] at hfield
  rcases hfield with rfl | rfl
  · exact reads_oneof 1 reads_smakChessMoveMsg ordered_smakChessMoveMsg _ _
  · exact reads_oneof 2 reads_smakNewGameMsg ordered_smakNewGameMsg _ _

theorem ordered_smakMessageMsg : smakMessageMsg.Ordered := ⟨by decide, by decide⟩

/-- Whatever bytes have come, and whatever the message held before: `pb_decode`
fails with a message, or has read all of the bytes, and neither the outcome nor
the message depends on the memory behind them. -/
theorem readsAll_smakMessage (dest : SmakMessageT) : ReadsAll (pbDecode smakMessageMsg dest) :=
  readsAll_pbDecodeInner reads_smakMessageMsg ordered_smakMessageMsg false dest

/-! What the wire format makes of a message, the decoder does too. -/

/-- The bytes that count in an array. -/
def PbBytesArray.view (b : PbBytesArray) : PbBytes :=
  ⟨(b.bytes.take b.size).take 2, List.length_take_le 2 _⟩

def SmakChessMoveT.view (mv : SmakChessMoveT) : SmakChessMove :=
  ⟨mv.id, mv.ply, mv.fromSquare, mv.toSquare, mv.piece.view, mv.captured.view, mv.moveType⟩

def SmakMessageT.view : SmakMessageT → SmakMessage
  | .unset => .unset
  | .move mv => .move mv.view
  | .newGame b => .newGame b

/-- The array with nothing behind the bytes. -/
def arrayOf (b : PbBytes) : PbBytesArray :=
  ⟨b.bytes.length, b.bytes ++ [0, 0].drop b.bytes.length⟩

def moveOf (mv : SmakChessMove) : SmakChessMoveT :=
  ⟨mv.id, mv.ply, mv.fromSquare, mv.toSquare, arrayOf mv.piece, arrayOf mv.captured, mv.moveType⟩

/-- `setNewGame` with a boolean of 32 bits, as `pb_decode_bool` reads it. -/
def setNewGame32 (isNewGame : Bool) (f : WireField) : Option Bool :=
  match f.number with
  | 1 => (uintOf f 32).map fun n => n != 0
  | _ => some isNewGame

def setMessage32 (m : SmakMessage) (f : WireField) : Option SmakMessage :=
  match f.number, f.value with
  | 2, .bytes bs =>
    let b := match m with
      | .newGame b => b
      | _ => false
    (decodeMessage setNewGame32 b bs).map .newGame
  | _, _ => m.set f

section Meets

variable {σ : Type} {desc : PbMsgdesc σ} {f : WireField} {dest : σ} {tag dataSize bits n : Nat}
  {a : List UInt8}

theorem meets_uvarint {pData : σ → Nat → σ} (h0 : f.number ≠ 0)
    (hfind : desc.fields.find? (fun field => field.tag == f.number) =
      some (.uvarint tag dataSize pData))
    (hsize : uintSize dataSize = some (2 ^ bits)) (h : uintOf f bits = some n) :
    Meets desc dest f (pData dest n) := by
  obtain ⟨number, value⟩ := f
  cases value with
  | varint m =>
    simp only [uintOf] at h
    split_ifs at h with hm
    obtain rfl := by simpa using h
    exact meets_known h0 hfind
      (content_basic rfl ((content_pbDecVarint hsize hm).bind_pure (pData dest)))
  | _ => cases h

theorem view_append (bs old : List UInt8) (h : bs.length ≤ 2) :
    PbBytesArray.view ⟨bs.length, bs ++ old⟩ = ⟨bs, h⟩ := by
  simp [PbBytesArray.view, List.take_of_length_le h]

theorem meets_bytes (dest : σ) {get : σ → PbBytesArray} {pData : σ → PbBytesArray → σ} {b : PbBytes}
    (h0 : f.number ≠ 0) (hfind : desc.fields.find? (fun field => field.tag == f.number) =
      some (.bytes tag bytesArraySize get pData)) (h : bytesOf f = some b) :
    ∃ array : PbBytesArray, array.view = b ∧ Meets desc dest f (pData dest array) := by
  obtain ⟨number, value⟩ := f
  cases value with
  | bytes bs =>
    simp only [bytesOf] at h
    split_ifs at h with hfits
    obtain rfl := by simpa using h
    have hsize : bs.length + bytesOffset ≤ bytesArraySize := Nat.add_le_add_right hfits bytesOffset
    exact ⟨_, view_append bs _ hfits, meets_known h0 hfind (content_basic rfl
      ((content_pbDecBytes hsize (by decide)).bind_pure (pData dest)))⟩
  | _ => cases h

theorem meets_oneof {τ : Type} {sub : PbMsgdesc τ} {get : σ → τ} {pData : σ → τ → σ} {m : τ}
    (h0 : f.number ≠ 0) (hfind : desc.fields.find? (fun field => field.tag == f.number) =
      some (.oneof tag sub get pData)) (hv : f.value = .bytes a)
    (h : ∀ t, pbDecodeInner sub true (get dest) (.over a t) = .ok (m, .over [] t)) :
    Meets desc dest f (pData dest m) := by
  obtain ⟨number, value⟩ := f
  dsimp only at hv
  subst hv
  exact meets_known h0 hfind
    (content_basic rfl ((content_fromSubstream h).bind_pure (pData dest)))

end Meets

theorem meets_moveSet {dest : SmakChessMoveT} {f : WireField} {a : SmakChessMove}
    (h0 : f.number ≠ 0) (h : dest.view.set f = some a) :
    ∃ dest' : SmakChessMoveT, dest'.view = a ∧ Meets smakChessMoveMsg dest f dest' := by
  unfold SmakChessMove.set at h
  split at h
  case h_1 hk | h_2 hk | h_3 hk | h_4 hk | h_7 hk =>
    obtain ⟨n, hn, rfl⟩ := Option.map_eq_some_iff.mp h
    exact ⟨_, rfl, meets_uvarint h0 (by rw [hk]; rfl) rfl hn⟩
  case h_5 hk =>
    obtain ⟨b, hb, rfl⟩ := Option.map_eq_some_iff.mp h
    have hfind : smakChessMoveMsg.fields.find? (fun field => field.tag == f.number) =
        some (.bytes 5 bytesArraySize SmakChessMoveT.piece fun mv b => { mv with piece := b }) := by
      rw [hk]
      rfl
    obtain ⟨array, rfl, hmeets⟩ := meets_bytes dest h0 hfind hb
    exact ⟨{ dest with piece := array }, rfl, hmeets⟩
  case h_6 hk =>
    obtain ⟨b, hb, rfl⟩ := Option.map_eq_some_iff.mp h
    have hfind : smakChessMoveMsg.fields.find? (fun field => field.tag == f.number) =
        some (.bytes 6 bytesArraySize SmakChessMoveT.captured fun mv b => { mv with captured := b }) := by
      rw [hk]
      rfl
    obtain ⟨array, rfl, hmeets⟩ := meets_bytes dest h0 hfind hb
    exact ⟨{ dest with captured := array }, rfl, hmeets⟩
  case h_8 h1 h2 h3 h4 h5 h6 h7 =>
    obtain rfl := by simpa using h
    refine ⟨dest, rfl, meets_unknown h0 ?_⟩
    simp only [PbMsgdesc.tags, smakChessMoveMsg, PbField.uvarint, PbField.bytes, PbField.basic,
      List.map_cons, List.map_nil, List.mem_cons, List.not_mem_nil, or_false, not_or]
    exact ⟨h1, h2, h3, h4, h5, h6, h7⟩

theorem meets_setNewGame32 {dest : Bool} {f : WireField} {b : Bool} (h0 : f.number ≠ 0)
    (h : setNewGame32 dest f = some b) : Meets smakNewGameMsg dest f b := by
  unfold setNewGame32 at h
  split at h
  case h_1 hk =>
    obtain ⟨n, hn, rfl⟩ := Option.map_eq_some_iff.mp h
    obtain ⟨number, value⟩ := f
    cases value with
    | varint m =>
      simp only [uintOf] at hn
      split_ifs at hn with hm
      obtain rfl := by simpa using hn
      exact meets_known h0 (by rw [hk]; rfl)
        (content_basic rfl ((content_pbDecodeBool hm).bind_pure fun b => b))
    | _ => cases hn
  case h_2 hk =>
    obtain rfl := by simpa using h
    refine meets_unknown h0 ?_
    simpa [PbMsgdesc.tags, smakNewGameMsg, PbField.bool, PbField.basic] using hk

theorem meets_setMessage32 {dest : SmakMessageT} {f : WireField} {m : SmakMessage}
    (h0 : f.number ≠ 0) (hlen : ∀ as, f.value = .bytes as → as.length < 2 ^ 32)
    (h : setMessage32 dest.view f = some m) :
    ∃ dest' : SmakMessageT, dest'.view = m ∧ Meets smakMessageMsg dest f dest' := by
  unfold setMessage32 at h
  split at h
  next as hk hv =>
    have hmember : (decodeMessage setNewGame32 dest.isNewGame as).map .newGame = some m := by
      cases dest <;> exact h
    obtain ⟨b, hb, rfl⟩ := Option.map_eq_some_iff.mp hmember
    obtain ⟨dest', rfl, hinner⟩ := pbDecodeInner_of_decodeMessage id dest.isNewGame
      reads_smakNewGameMsg ordered_smakNewGameMsg
      (fun dest f b h0 _ hb => ⟨b, rfl, meets_setNewGame32 h0 hb⟩) (hlen as hv) hb
    have hfind : smakMessageMsg.fields.find? (fun field => field.tag == f.number) =
        some (.oneof 2 smakNewGameMsg SmakMessageT.isNewGame fun _ b => .newGame b) := by
      rw [hk]
      rfl
    exact ⟨.newGame dest', rfl, meets_oneof h0 hfind hv hinner⟩
  next hne =>
    unfold SmakMessage.set at h
    split at h
    case h_1 as hk hv =>
      have hmember : (decodeMessage SmakChessMove.set dest.boardMove.view as).map .move = some m := by
        cases dest <;> exact h
      obtain ⟨mv, hmv, rfl⟩ := Option.map_eq_some_iff.mp hmember
      obtain ⟨dest', rfl, hinner⟩ := pbDecodeInner_of_decodeMessage SmakChessMoveT.view dest.boardMove
        reads_smakChessMoveMsg ordered_smakChessMoveMsg
        (fun dest f a h0 _ ha => meets_moveSet h0 ha) (hlen as hv) hmv
      have hfind : smakMessageMsg.fields.find? (fun field => field.tag == f.number) =
          some (.oneof 1 smakChessMoveMsg SmakMessageT.boardMove fun _ mv => .move mv) := by
        rw [hk]
        rfl
      exact ⟨.move dest', rfl, meets_oneof h0 hfind hv hinner⟩
    case h_2 => cases h
    case h_3 as hk hv => exact absurd hv (hne as hk)
    case h_4 => cases h
    case h_5 h1 h2 _ _ =>
      obtain rfl := by simpa using h
      refine ⟨dest, rfl, meets_unknown h0 ?_⟩
      simp only [PbMsgdesc.tags, smakMessageMsg, PbField.oneof, PbField.basic, List.map_cons,
        List.map_nil, List.mem_cons, List.not_mem_nil, or_false, not_or]
      exact ⟨h1, h2⟩

/-- What the wire format reads in a message, `pb_decode` reads too, whatever the
message held before. -/
theorem pbDecode_of_wireFormat (dest : SmakMessageT) {bs : List UInt8} {m : SmakMessage}
    (hlen : bs.length < 2 ^ 32) (h : decodeMessage setMessage32 .unset bs = some m) :
    ∃ dest' : SmakMessageT, dest'.view = m ∧
      ∀ t, pbDecode smakMessageMsg dest (.over bs t) = .ok (dest', .over [] t) :=
  pbDecodeInner_of_decodeMessage SmakMessageT.view .unset
    reads_smakMessageMsg ordered_smakMessageMsg (fun _ _ _ h0 hlen h => meets_setMessage32 h0 hlen h)
    hlen h

/-! The fields that the encoder writes. -/

/-- An array within its four bytes. -/
structure PbBytesArray.Valid (b : PbBytesArray) : Prop where
  size : b.size + bytesOffset ≤ bytesArraySize
  bytes : b.bytes.length + bytesOffset = bytesArraySize

structure SmakChessMoveT.Valid (mv : SmakChessMoveT) : Prop where
  piece : mv.piece.Valid
  captured : mv.captured.Valid

def SmakMessageT.Valid : SmakMessageT → Prop
  | .move mv => mv.Valid
  | _ => True

theorem wire_bytes {b : PbBytesArray} (h : b.Valid) (tag dataSize : Nat) :
    (PbFieldIter.bytes tag dataSize b).wire = bytesField tag b.view := by
  obtain ⟨size, bytes⟩ := b
  obtain ⟨hsize, hbytes⟩ := h
  obtain ⟨c, d, rfl⟩ := List.length_eq_two.mp (Nat.add_right_cancel hbytes)
  obtain rfl | rfl | rfl : size = 0 ∨ size = 1 ∨ size = 2 := by
    simp only [bytesArraySize, bytesOffset] at hsize
    omega
  · rfl
  · rfl
  · rfl

theorem wires_move {mv : SmakChessMoveT} (h : mv.Valid) : wires mv.iter = mv.view.fields := by
  simp only [SmakChessMoveT.iter, wires, wire_bytes h.piece, wire_bytes h.captured]
  simp only [PbFieldIter.wire, SmakChessMove.fields, SmakChessMoveT.view, uintField, List.append_nil,
    List.append_assoc]
  rfl

theorem wires_message {m : SmakMessageT} (h : m.Valid) : wires m.iter = m.view.fields := by
  cases m with
  | unset => rfl
  | move mv =>
    simp only [SmakMessageT.iter, wires, PbFieldIter.wire, SmakMessageT.whichBoardMsg,
      SmakMessageT.boardMove, SmakMessageT.view, SmakMessage.fields, wires_move h]
    rfl
  | newGame b => cases b <;> rfl

theorem wellFormed_bytes {b : PbBytesArray} (h : b.Valid) {tag : Nat} (htag : tag < 65536) :
    (PbFieldIter.bytes tag bytesArraySize b).WellFormed := by
  have hsize := h.size
  have hbytes := h.bytes
  simp only [PbFieldIter.WellFormed, bytesArraySize, bytesOffset] at hsize hbytes ⊢
  omega

theorem wellFormed_move {mv : SmakChessMoveT} (h : mv.Valid) : WellFormed mv.iter := by
  have hid := mv.id.toNat_lt
  have hply := mv.ply.toNat_lt
  have hfrom := mv.fromSquare.toNat_lt
  have hto := mv.toSquare.toNat_lt
  have htype := mv.moveType.toNat_lt
  have h4 {tag n : Nat} (htag : tag < 65536) (hn : n < 2 ^ 32) :
      (PbFieldIter.uvarint tag 4 n).WellFormed := ⟨htag, by decide, hn⟩
  exact ⟨⟨by decide, by decide, hid⟩, h4 (by decide) hply, h4 (by decide) hfrom, h4 (by decide) hto,
    wellFormed_bytes h.piece (by decide), wellFormed_bytes h.captured (by decide),
    h4 (by decide) htype, trivial⟩

theorem valid_zero : SmakChessMoveT.zero.Valid := ⟨⟨by decide, rfl⟩, ⟨by decide, rfl⟩⟩

theorem valid_boardMove {m : SmakMessageT} (h : m.Valid) : m.boardMove.Valid := by
  cases m with
  | move mv => exact h
  | _ => exact valid_zero

theorem wellFormed_message {m : SmakMessageT} (h : m.Valid) : WellFormed m.iter := by
  have hmove := valid_boardMove h
  have hlen := encodeFields_fields_length_le m.boardMove.view
  rw [← wires_move hmove] at hlen
  refine ⟨⟨by decide, wellFormed_move hmove, by omega⟩, ⟨by decide, ⟨Nat.one_lt_succ_succ _, trivial⟩, ?_⟩, trivial⟩
  cases m.isNewGame <;> decide

theorem encodeFields_wires {m : SmakMessageT} (h : m.Valid) :
    encodeFields (wires m.iter) = SmakChess.pbEncode m.view := by
  rw [wires_message h, SmakChess.pbEncode]

/-- What `smak.proto` promises: the arrays hold at most one byte, and the enumeration
has four values. -/
def SmakMessageT.InRange : SmakMessageT → Prop
  | .move mv => mv.piece.size ≤ 1 ∧ mv.captured.size ≤ 1 ∧ mv.moveType.toNat ≤ 3
  | _ => True

theorem length_view_le (b : PbBytesArray) : b.view.bytes.length ≤ b.size := by
  simp only [PbBytesArray.view, List.length_take]
  omega

theorem pbEncode_view_length_le {m : SmakMessageT} (h : m.InRange) :
    (SmakChess.pbEncode m.view).length ≤ smakMessageSize := by
  cases m with
  | unset => decide
  | newGame b => cases b <;> decide
  | move mv =>
    have h1 := size_uintField_le (k := 1) (c := 9) (by decide) (n := mv.view.id.toNat)
      (by have := mv.id.toNat_lt; simp only [SmakChessMoveT.view]; omega)
    have h2 := size_uintField_le (k := 2) (c := 4) (by decide) (n := mv.view.ply.toNat)
      (by have := mv.ply.toNat_lt; simp only [SmakChessMoveT.view]; omega)
    have h3 := size_uintField_le (k := 3) (c := 4) (by decide) (n := mv.view.fromSquare.toNat)
      (by have := mv.fromSquare.toNat_lt; simp only [SmakChessMoveT.view]; omega)
    have h4 := size_uintField_le (k := 4) (c := 4) (by decide) (n := mv.view.toSquare.toNat)
      (by have := mv.toSquare.toNat_lt; simp only [SmakChessMoveT.view]; omega)
    have h5 := size_bytesField_le (k := 5) (b := mv.view.piece) (by decide)
    have h6 := size_bytesField_le (k := 6) (b := mv.view.captured) (by decide)
    have h7 := size_uintField_le (k := 7) (c := 0) (by decide) (n := mv.view.moveType.toNat)
      (by have hrange : mv.moveType.toNat ≤ 3 := h.2.2; simp only [SmakChessMoveT.view]; omega)
    have hpiece : mv.view.piece.bytes.length ≤ 1 := (length_view_le mv.piece).trans h.1
    have hcaptured : mv.view.captured.bytes.length ≤ 1 := (length_view_le mv.captured).trans h.2.1
    rw [SmakMessageT.view, pbEncode_move_length, encodeFields_fields_length, smakMessageSize]
    omega

/-- `SMAK_MESSAGE_SIZE` bytes are enough for every message, and no fewer are. -/
theorem pbEncode_smakMessageSize :
    (∀ m : SmakMessageT, m.Valid → m.InRange →
      pbEncode m.iter (.fromBuffer smakMessageSize) = (true, ⟨true, SmakChess.pbEncode m.view,
        smakMessageSize, (SmakChess.pbEncode m.view).length, none⟩)) ∧
    ∀ bufsize < smakMessageSize, ∃ m : SmakMessageT, m.Valid ∧ m.InRange ∧
      (pbEncode m.iter (.fromBuffer bufsize)).1 = false := by
  refine ⟨fun m hm hr => ?_, fun bufsize hlt => ?_⟩
  · have hle := pbEncode_view_length_le hr
    have hlen : (encodeFields (wires m.iter)).length < 2 ^ 32 := by
      rw [encodeFields_wires hm]
      exact hle.trans_lt (by decide)
    have hfits := (pbEncode_fromBuffer m.iter smakMessageSize (wellFormed_message hm) hlen).2.1
    rw [encodeFields_wires hm] at hfits
    exact hfits hle
  · let mv : SmakChessMoveT := ⟨UInt64.ofNat (2 ^ 64 - 1), UInt32.ofNat (2 ^ 32 - 1),
      UInt32.ofNat (2 ^ 32 - 1), UInt32.ofNat (2 ^ 32 - 1), ⟨1, [0, 0]⟩, ⟨1, [0, 0]⟩, 1⟩
    have hm : (SmakMessageT.move mv).Valid := ⟨⟨by decide, rfl⟩, ⟨by decide, rfl⟩⟩
    have hlen : (encodeFields (wires (SmakMessageT.move mv).iter)).length = smakMessageSize := by
      rw [encodeFields_wires hm]
      decide +kernel
    have hfull := (pbEncode_fromBuffer _ bufsize (wellFormed_message hm) (by rw [hlen]; decide)).2.2
    obtain ⟨pre, -, -, he⟩ := hfull (hlen ▸ hlt)
    exact ⟨.move mv, hm, by simp [SmakMessageT.InRange, mv], by rw [he]⟩

/-! Round trip. -/

theorem decodeMessage_pbEncode (m : SmakMessage) :
    decodeMessage setMessage32 .unset (SmakChess.pbEncode m) = some m := by
  cases m with
  | unset => rfl
  | newGame b => cases b <;> decide
  | move mv =>
    have hlen := encodeFields_fields_length_le mv
    have hvalid : ∀ f ∈ (SmakMessage.move mv).fields, f.Valid := by
      intro f hf
      obtain rfl := by simpa [SmakMessage.fields] using hf
      exact ⟨Nat.one_pos, (by simp [WireValue.wireType]), by dsimp only; omega⟩
    have hmove : decodeMessage SmakChessMove.set SmakChessMove.zero (encodeFields mv.fields) =
        some mv := by rw [decodeMessage_encodeFields (valid_fields mv), foldlM_fields]
    rw [SmakChess.pbEncode, decodeMessage_encodeFields hvalid]
    simp [SmakMessage.fields, setMessage32, SmakMessage.set, hmove]

theorem pbEncode_length_le (m : SmakMessage) : (SmakChess.pbEncode m).length ≤ 45 := by
  cases m with
  | unset => decide
  | newGame b => cases b <;> decide
  | move mv =>
    have hle := encodeFields_fields_length_le mv
    rw [pbEncode_move_length]
    omega

/-- What one side has encoded into a buffer, the other side decodes, whatever
else is in its memory. -/
theorem pbDecode_of_pbEncode {m : SmakMessageT} {bufsize : Nat} {s : PbOstream} (hm : m.Valid)
    (h : pbEncode m.iter (.fromBuffer bufsize) = (true, s)) (dest : SmakMessageT) :
    ∃ dest' : SmakMessageT, dest'.view = m.view ∧ ∀ t,
      pbDecode smakMessageMsg dest (.over s.state t) = .ok (dest', .over [] t) := by
  have hle := pbEncode_length_le m.view
  have hbuffer := pbEncode_fromBuffer m.iter bufsize (wellFormed_message hm)
    (by rw [encodeFields_wires hm]; omega)
  rw [encodeFields_wires hm] at hbuffer
  obtain ⟨-, hfits, hfull⟩ := hbuffer
  rcases Nat.lt_or_ge bufsize (SmakChess.pbEncode m.view).length with hlt | hge
  · obtain ⟨pre, -, -, he⟩ := hfull hlt
    rw [he] at h
    cases h
  · rw [hfits hge] at h
    obtain rfl := by simpa using h
    exact pbDecode_of_wireFormat dest (by dsimp only; omega) (decodeMessage_pbEncode m.view)

theorem pbDecode_of_pbEncode_newGame :
    ∃ dest' : SmakMessageT, dest'.view = .newGame true ∧ ∀ t,
      pbDecode smakMessageMsg (.move .zero) (.over [0x12, 2, 8, 1] t) = .ok (dest', .over [] t) :=
  have hm : (SmakMessageT.newGame true).Valid := trivial
  have h : pbEncode (SmakMessageT.newGame true).iter (.fromBuffer smakMessageSize) =
      (true, ⟨true, [0x12, 2, 8, 1], smakMessageSize, 4, none⟩) := rfl
  pbDecode_of_pbEncode hm h (.move .zero)

/-- A buffer takes a message exactly when it is long enough for the wire format,
which then is what it holds. Otherwise the encoder stops at a write that does not
fit, and nothing behind the buffer is written. -/
theorem pbEncode_message {m : SmakMessageT} (hm : m.Valid) (bufsize : Nat) :
    pbGetEncodedSize m.iter = some (SmakChess.pbEncode m.view).length ∧
      ((SmakChess.pbEncode m.view).length ≤ bufsize →
        pbEncode m.iter (.fromBuffer bufsize) = (true, ⟨true, SmakChess.pbEncode m.view, bufsize,
          (SmakChess.pbEncode m.view).length, none⟩)) ∧
      (bufsize < (SmakChess.pbEncode m.view).length →
        ∃ pre, pre <+: SmakChess.pbEncode m.view ∧ pre.length ≤ bufsize ∧
          pbEncode m.iter (.fromBuffer bufsize) =
            (false, ⟨true, pre, bufsize, pre.length, some "stream full"⟩)) := by
  have hle := pbEncode_length_le m.view
  have hbuffer := pbEncode_fromBuffer m.iter bufsize (wellFormed_message hm)
    (by rw [encodeFields_wires hm]; omega)
  rwa [encodeFields_wires hm] at hbuffer

theorem pbEncode_message_newGame :
    pbGetEncodedSize (SmakMessageT.newGame true).iter = some 4 ∧
      (4 ≤ 3 → pbEncode (SmakMessageT.newGame true).iter (.fromBuffer 3) =
        (true, ⟨true, [0x12, 2, 8, 1], 3, 4, none⟩)) ∧
      (3 < 4 → ∃ pre, pre <+: [0x12, 2, 8, 1] ∧ pre.length ≤ 3 ∧
        pbEncode (SmakMessageT.newGame true).iter (.fromBuffer 3) =
          (false, ⟨true, pre, 3, pre.length, some "stream full"⟩)) :=
  pbEncode_message (m := .newGame true) trivial 3

end SmakChess.Pb
