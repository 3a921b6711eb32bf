import SmakChess.PbSizes

/-! What the firmware relies on nanopb for, of the encoder and the decoder that
it carries. -/

namespace SmakChess.Pb

open Protobuf

section Fields

variable {σ : Type} {P : σ → Nat → Prop}

theorem uses_basic {wire tag wireType : Nat} {content : σ → Read σ} {dest : σ}
    (h : Uses (content dest) P) : Uses ((PbField.basic wire tag content).decodeField wireType dest) P :=
  .ite (fun _ => uses_returnError _) fun _ => h

theorem uses_pbDecVarint {dataSize size : Nat} (hsize : uintSize dataSize = some size) :
    Uses (pbDecVarint dataSize) fun a n => 0 < n ∧ a < size ∧ a < 2 ^ (7 * n) := by
  refine uses_pbDecodeVarint.bind fun a m ha => ?_
  simp only [hsize]
  refine .ite (fun _ => uses_returnError _) fun hfits => uses_pure ⟨ha.1, ?_, ha.2⟩
  have hpos : 0 < size := by
    unfold uintSize at hsize
    split at hsize <;> simp_all <;> omega
  rw [← not_not.mp hfits]
  exact Nat.mod_lt a hpos

theorem uses_pbDecBytes (dataSize : Nat) (dest : PbBytesArray) : Uses (pbDecBytes dataSize dest)
    fun a n => a.size < n ∧ a.size + bytesOffset ≤ dataSize ∧
      ∃ bs, bs.length = a.size ∧ a.bytes = bs ++ dest.bytes.drop a.size := by
  refine uses_pbDecodeVarint32.bind fun size m hm => .ite (fun _ => uses_returnError _) fun _ => ?_
  refine .ite (fun _ => uses_returnError _) fun hsize => (uses_pbRead size).bind fun bs n hbs => ?_
  obtain ⟨hlen, rfl⟩ := hbs
  exact uses_pure ⟨by dsimp only; omega, by dsimp only; omega, bs, hlen, rfl⟩

theorem Reads.uses_imp {α : Type} {f : Read α} {p : Prop} {Q : α → Nat → Prop} (hf : Reads f)
    (h : p → Uses f Q) : Uses f fun a n => p → Q a n := by
  by_cases hp : p
  · exact (h hp).mono fun a n hQ _ => hQ
  · exact hf.uses.mono fun a n _ hp' => absurd hp' hp

end Fields

/-! Sizes. -/

/-- The bytes that the fields of a move are encoded in. -/
def moveSize (mv : SmakChessMoveT) : Nat := (encodeFields mv.view.fields).length

def newGameSize (b : Bool) : Nat := (encodeFields (newGameFields b)).length

def messageSize (m : SmakMessageT) : Nat := (SmakChess.pbEncode m.view).length

theorem size_uintField_of_lt (tag : Nat) {a n : Nat} (htag : tag < 8) (hn : 0 < n) (ha : a < 2 ^ (7 * n)) :
    (encodeFields (uintField tag a)).length ≤ n + 1 := by
  obtain ⟨n, rfl⟩ := Nat.exists_eq_succ_of_ne_zero hn.ne'
  rw [pow_mul] at ha
  exact size_uintField_le htag ha

theorem size_bytesField_view (tag : Nat) (htag : tag < 8) (b : PbBytesArray) :
    (encodeFields (bytesField tag b.view)).length ≤ b.size + 2 :=
  (size_bytesField_le htag).trans (Nat.add_le_add_right (length_view_le b) 2)

theorem uses_moveField : ∀ field ∈ smakChessMoveMsg.fields, ∀ wireType dest k, 0 < k →
    Uses (field.decodeField wireType dest) fun dest' n => moveSize dest' ≤ moveSize dest + (k + n) := by
  intro field hfield wireType dest k hk
  simp only [smakChessMoveMsg, List.mem_cons, List.not_mem_nil, or_false] at hfield
  simp only [moveSize, encodeFields_fields_length]
  rcases hfield with rfl | rfl | rfl | rfl | rfl | rfl | rfl
  · refine uses_basic ((uses_pbDecVarint rfl).bind fun a n ha => uses_pure ?_)
    have hsize := size_uintField_of_lt 1 (by decide) ha.1 ha.2.2
    simp only [SmakChessMoveT.view, UInt64.toNat_ofNat_of_lt' ha.2.1]
    omega
  · refine uses_basic ((uses_pbDecVarint rfl).bind fun a n ha => uses_pure ?_)
    have hsize := size_uintField_of_lt 2 (by decide) ha.1 ha.2.2
    simp only [SmakChessMoveT.view, UInt32.toNat_ofNat_of_lt' ha.2.1]
    omega
  · refine uses_basic ((uses_pbDecVarint rfl).bind fun a n ha => uses_pure ?_)
    have hsize := size_uintField_of_lt 3 (by decide) ha.1 ha.2.2
    simp only [SmakChessMoveT.view, UInt32.toNat_ofNat_of_lt' ha.2.1]
    omega
  · refine uses_basic ((uses_pbDecVarint rfl).bind fun a n ha => uses_pure ?_)
    have hsize := size_uintField_of_lt 4 (by decide) ha.1 ha.2.2
    simp only [SmakChessMoveT.view, UInt32.toNat_ofNat_of_lt' ha.2.1]
    omega
  · refine uses_basic ((uses_pbDecBytes _ _).bind fun b n hb => uses_pure ?_)
    have hsize := size_bytesField_view 5 (by decide) b
    simp only [SmakChessMoveT.view]
    omega
  · refine uses_basic ((uses_pbDecBytes _ _).bind fun b n hb => uses_pure ?_)
    have hsize := size_bytesField_view 6 (by decide) b
    simp only [SmakChessMoveT.view]
    omega
  · refine uses_basic ((uses_pbDecVarint rfl).bind fun a n ha => uses_pure ?_)
    have hsize := size_uintField_of_lt 7 (by decide) ha.1 ha.2.2
    simp only [SmakChessMoveT.view, UInt32.toNat_ofNat_of_lt' ha.2.1]
    omega

theorem uses_move (dest : SmakChessMoveT) : Uses (pbDecodeInner smakChessMoveMsg true dest)
    fun dest' n => moveSize dest' ≤ moveSize dest + n :=
  uses_pbDecodeInner (R := fun a n b => moveSize b ≤ moveSize a + n) reads_smakChessMoveMsg
    ordered_smakChessMoveMsg (fun a n => Nat.le_add_right _ _) (fun a b c m n h h' => by omega)
    uses_moveField dest

theorem uses_newGame (dest : Bool) : Uses (pbDecodeInner smakNewGameMsg true dest)
    fun dest' n => newGameSize dest' ≤ newGameSize dest + n := by
  refine uses_pbDecodeInner (R := fun a n b => newGameSize b ≤ newGameSize a + n) reads_smakNewGameMsg
    ordered_smakNewGameMsg (fun a n => Nat.le_add_right _ _) (fun a b c m n h h' => by omega) ?_ dest
  intro field hfield wireType dest k hk
  obtain rfl := by simpa [smakNewGameMsg] using hfield
  have hbool : Uses pbDecodeBool fun _ n => 0 < n :=
    uses_pbDecodeVarint32.bind fun value m hm => uses_pure hm.1
  refine uses_basic (hbool.bind fun b n hn => uses_pure ?_)
  have hle := encodeFields_newGameFields_length_le b
  simp only [newGameSize]
  omega

theorem moveSize_boardMove_le (m : SmakMessageT) : moveSize m.boardMove ≤ messageSize m := by
  cases m with
  | move mv =>
    rw [messageSize, SmakMessageT.view, pbEncode_move_length]
    exact Nat.le_add_left _ 2
  | _ => exact Nat.zero_le _

theorem newGameSize_isNewGame_le (m : SmakMessageT) : newGameSize m.isNewGame ≤ messageSize m := by
  cases m with
  | newGame b =>
    rw [messageSize, SmakMessageT.view, pbEncode_newGame_length]
    exact Nat.le_add_left _ 2
  | _ => exact Nat.zero_le _

theorem uses_message (dest : SmakMessageT) : Uses (pbDecodeInner smakMessageMsg true dest)
    fun dest' n => messageSize dest' ≤ messageSize dest + n := by
  refine uses_pbDecodeInner (R := fun a n b => messageSize b ≤ messageSize a + n) reads_smakMessageMsg
    ordered_smakMessageMsg (fun a n => Nat.le_add_right _ _) (fun a b c m n h h' => by omega) ?_ dest
  intro field hfield wireType dest k hk
  simp only [smakMessageMsg, List.mem_cons, List.not_mem_nil, or_false] at hfield
  rcases hfield with rfl | rfl
  · have hread := readsAll_pbDecodeInner reads_smakChessMoveMsg ordered_smakChessMoveMsg true
      dest.boardMove
    refine uses_basic ((uses_fromSubstream hread (uses_move _)).bind fun mv n hmv => uses_pure ?_)
    obtain ⟨j, hj, hsize⟩ := hmv
    have hdest := moveSize_boardMove_le dest
    rw [messageSize, SmakMessageT.view, pbEncode_move_length]
    simp only [moveSize] at hsize hdest
    omega
  · have hread := readsAll_pbDecodeInner reads_smakNewGameMsg ordered_smakNewGameMsg true
      dest.isNewGame
    refine uses_basic ((uses_fromSubstream hread (uses_newGame _)).bind fun b n hb => uses_pure ?_)
    obtain ⟨j, hj, hsize⟩ := hb
    have hdest := newGameSize_isNewGame_le dest
    rw [messageSize, SmakMessageT.view, pbEncode_newGame_length]
    simp only [newGameSize] at hsize hdest
    omega

/-! Arrays. -/

theorem uses_valid {dest : PbBytesArray} (h : dest.Valid) :
    Uses (pbDecBytes bytesArraySize dest) fun b _ => b.Valid := by
  refine (uses_pbDecBytes bytesArraySize dest).mono fun b n hb => ⟨hb.2.1, ?_⟩
  obtain ⟨-, hsize, bs, hbs, hbytes⟩ := hb
  have hlen := h.bytes
  rw [hbytes, List.length_append, List.length_drop]
  omega

theorem uses_moveValid (dest : SmakChessMoveT) : Uses (pbDecodeInner smakChessMoveMsg true dest)
    fun dest' _ => dest.Valid → dest'.Valid := by
  refine uses_pbDecodeInner (R := fun a _ b => a.Valid → b.Valid) reads_smakChessMoveMsg
    ordered_smakChessMoveMsg (fun _ _ h => h) (fun _ _ _ _ _ h h' ha => h' (h ha)) ?_ dest
  intro field hfield wireType dest k hk
  simp only [smakChessMoveMsg, List.mem_cons, List.not_mem_nil, or_false] at hfield
  have hother {dataSize : Nat} (g : Nat → SmakChessMoveT)
      (hg : ∀ a, (g a).piece = dest.piece ∧ (g a).captured = dest.captured) :
      Uses (pbDecVarint dataSize >>= fun a => pure (g a)) fun dest' _ => dest.Valid → dest'.Valid :=
    (reads_pbDecVarint dataSize).uses.bind fun a _ _ => uses_pure fun h =>
      ⟨(hg a).1 ▸ h.piece, (hg a).2 ▸ h.captured⟩
  rcases hfield with rfl | rfl | rfl | rfl | rfl | rfl | rfl
  · exact uses_basic (hother _ fun _ => ⟨rfl, rfl⟩)
  · exact uses_basic (hother _ fun _ => ⟨rfl, rfl⟩)
  · exact uses_basic (hother _ fun _ => ⟨rfl, rfl⟩)
  · exact uses_basic (hother _ fun _ => ⟨rfl, rfl⟩)
  · exact uses_basic (((reads_pbDecBytes _ _).bind fun _ => reads_pure _).uses_imp fun h =>
      (uses_valid h.piece).bind fun b n hb => uses_pure ⟨hb, h.captured⟩)
  · exact uses_basic (((reads_pbDecBytes _ _).bind fun _ => reads_pure _).uses_imp fun h =>
      (uses_valid h.captured).bind fun b n hb => uses_pure ⟨h.piece, hb⟩)
  · exact uses_basic (hother _ fun _ => ⟨rfl, rfl⟩)

/-- In a message that has been decoded an array holds at most two bytes, though
`smak.proto` says one: the size and the array stay within the structure. -/
theorem within_pbDecode {bs t : List UInt8} {dest dest' : SmakMessageT} {s : PbIstream}
    (h : pbDecode smakMessageMsg dest (.over bs t) = .ok (dest', s)) : dest'.boardMove.Valid := by
  have hmessage : Uses (pbDecodeInner smakMessageMsg true .unset) fun dest' _ =>
      SmakMessageT.unset.boardMove.Valid → dest'.boardMove.Valid := by
    refine uses_pbDecodeInner (R := fun a _ b => a.boardMove.Valid → b.boardMove.Valid)
      reads_smakMessageMsg ordered_smakMessageMsg (fun _ _ h => h)
      (fun _ _ _ _ _ h h' ha => h' (h ha)) ?_ .unset
    intro field hfield wireType dest k hk
    simp only [smakMessageMsg, List.mem_cons, List.not_mem_nil, or_false] at hfield
    rcases hfield with rfl | rfl
    · have hread := readsAll_pbDecodeInner reads_smakChessMoveMsg ordered_smakChessMoveMsg true
        dest.boardMove
      refine uses_basic ((uses_fromSubstream hread (uses_moveValid _)).bind fun mv n hmv => ?_)
      obtain ⟨j, -, hmv⟩ := hmv
      exact uses_pure hmv
    · have hread := readsAll_pbDecodeInner reads_smakNewGameMsg ordered_smakNewGameMsg true
        dest.isNewGame
      exact uses_basic (hread.fromSubstream.uses.bind fun b n _ => uses_pure fun _ => valid_zero)
  obtain ⟨-, -, -, -, hvalid⟩ := hmessage bs t dest' s h
  exact hvalid valid_zero

/-- A second byte is taken. -/
theorem within_pbDecode_two : ∃ dest' s, pbDecode smakMessageMsg .unset
    (.over [0x0A, 4, 0x2A, 2, 75, 81] []) = .ok (dest', s) ∧ dest'.boardMove.piece.size = 2 ∧
      dest'.boardMove.Valid :=
  have h : pbDecode smakMessageMsg .unset (.over [0x0A, 4, 0x2A, 2, 75, 81] []) =
      .ok (.move { SmakChessMoveT.zero with piece := ⟨2, [75, 81]⟩ }, .over [] []) := rfl
  ⟨_, _, h, rfl, within_pbDecode h⟩

/-! The two functions on the messages of the rest of this development. -/

def messageOf : SmakMessage → SmakMessageT
  | .unset => .unset
  | .move mv => .move (moveOf mv)
  | .newGame b => .newGame b

/-- `pb_encode` into a buffer that is long enough. -/
def nanopbEncode (m : SmakMessage) : List UInt8 :=
  (pbEncode (messageOf m).iter (.fromBuffer 45)).2.state

/-- `pb_decode` of a message that nothing is behind. -/
def nanopbDecode (bs : List UInt8) : Option SmakMessage :=
  match pbDecode smakMessageMsg .unset (.over bs []) with
  | .ok (m, _) => some m.view
  | .error _ => none

theorem valid_arrayOf (b : PbBytes) : (arrayOf b).Valid := by
  have hfits := b.fits
  have hlen : (arrayOf b).bytes.length = 2 := by
    simp only [arrayOf, List.length_append, List.length_drop, List.length_cons, List.length_nil]
    omega
  exact ⟨Nat.add_le_add_right hfits bytesOffset, congrArg (· + bytesOffset) hlen⟩

theorem valid_messageOf (m : SmakMessage) : (messageOf m).Valid := by
  cases m with
  | move mv => exact ⟨valid_arrayOf _, valid_arrayOf _⟩
  | _ => trivial

theorem view_arrayOf (b : PbBytes) : (arrayOf b).view = b := view_append b.bytes _ b.fits

theorem view_messageOf (m : SmakMessage) : (messageOf m).view = m := by
  cases m with
  | move mv => simp only [messageOf, moveOf, SmakMessageT.view, SmakChessMoveT.view, view_arrayOf]
  | _ => rfl

theorem nanopbEncode_eq (m : SmakMessage) : nanopbEncode m = SmakChess.pbEncode m := by
  have hvalid := valid_messageOf m
  have hle := pbEncode_length_le m
  have hbuffer := (pbEncode_fromBuffer (messageOf m).iter 45 (wellFormed_message hvalid)
    (by rw [encodeFields_wires hvalid, view_messageOf]; omega)).2.1
  rw [encodeFields_wires hvalid, view_messageOf] at hbuffer
  rw [nanopbEncode, hbuffer hle]

theorem nanopbDecode_nanopbEncode (m : SmakMessage) : nanopbDecode (nanopbEncode m) = some m := by
  have hle := pbEncode_length_le m
  obtain ⟨dest, hview, hread⟩ := pbDecode_of_wireFormat .unset (by omega) (decodeMessage_pbEncode m)
  rw [nanopbDecode, nanopbEncode_eq, hread, ← hview]

theorem length_nanopbEncode_le {bs : List UInt8} {m : SmakMessage} (h : nanopbDecode bs = some m) :
    (nanopbEncode m).length ≤ bs.length := by
  unfold nanopbDecode at h
  split at h
  next dest s hok =>
    obtain rfl := by simpa using h
    obtain ⟨used, rest, rfl, -, hsize⟩ := uses_message .unset bs [] dest s hok
    rw [nanopbEncode_eq, List.length_append]
    have h0 : messageSize .unset = 0 := rfl
    simp only [messageSize] at hsize h0
    omega
  · cases h

/-- The code that the firmware carries does what the rest of it expects of nanopb:
it is one of the codecs that this development is about. -/
theorem exists_nanopb :
    ∃ nanopb : Nanopb, nanopb.encode = nanopbEncode ∧ nanopb.decode = nanopbDecode :=
  ⟨⟨nanopbEncode, nanopbDecode, nanopbDecode_nanopbEncode,
    fun m hm => by rw [nanopbEncode_eq]; exact pbEncode_ne_nil m hm,
    fun _ _ h => length_nanopbEncode_le h⟩, rfl, rfl⟩

theorem uintOf_mono {f : WireField} {n : Nat} (h : uintOf f 32 = some n) : uintOf f 64 = some n := by
  obtain ⟨number, value⟩ := f
  cases value with
  | varint m =>
    simp only [uintOf] at h ⊢
    split_ifs at h with hm
    rw [if_pos (by omega)]
    exact h
  | _ => cases h

theorem set_of_setNewGame32 {b b' : Bool} {f : WireField} (h : setNewGame32 b f = some b') :
    setNewGame b f = some b' := by
  obtain ⟨number, value⟩ := f
  by_cases hk : number = 1
  · subst hk
    obtain ⟨n, hn, rfl⟩ := Option.map_eq_some_iff.mp h
    exact Option.map_eq_some_iff.mpr ⟨n, uintOf_mono hn, rfl⟩
  · simpa only [setNewGame32, setNewGame] using h

theorem set_of_setMessage32 {m m' : SmakMessage} {f : WireField} (h : setMessage32 m f = some m') :
    m.set f = some m' := by
  unfold setMessage32 at h
  split at h
  next bs hk hv =>
    obtain ⟨b, hb, rfl⟩ := Option.map_eq_some_iff.mp h
    have hb' := decodeMessage_mono (fun _ _ _ => set_of_setNewGame32) hb
    simp only [SmakMessage.set, hk, hv]
    exact Option.map_eq_some_iff.mpr ⟨b, hb', rfl⟩
  · exact h

/-- A message with its booleans in 32 bits is the same one for the decoder that
the firmware carries as for the wire format. -/
theorem nanopbDecode_agrees {bs : List UInt8} {m : SmakMessage} (hlen : bs.length < 2 ^ 32)
    (h : decodeMessage setMessage32 .unset bs = some m) :
    nanopbDecode bs = some m ∧ wireFormat.decode bs = some m := by
  obtain ⟨dest, rfl, hread⟩ := pbDecode_of_wireFormat .unset hlen h
  refine ⟨?_, decodeMessage_mono (fun _ _ _ => set_of_setMessage32) h⟩
  rw [nanopbDecode, hread]

theorem nanopbDecode_agrees_newGame :
    nanopbDecode [0x12, 2, 8, 5] = some (.newGame true) ∧
      wireFormat.decode [0x12, 2, 8, 5] = some (.newGame true) :=
  nanopbDecode_agrees (by decide) (by decide)

/-- Two messages one behind the other are the second one decoded into the first. -/
theorem pbDecode_append {a b t : List UInt8} {dest dest' : SmakMessageT} {s : PbIstream}
    (h : pbDecode smakMessageMsg dest (.over a []) = .ok (dest', s)) :
    pbDecode smakMessageMsg dest (.over (a ++ b) t) =
      pbDecodeInner smakMessageMsg true dest' (.over b t) :=
  pbDecodeInner_append reads_smakMessageMsg ordered_smakMessageMsg h

theorem pbDecode_append_newGame :
    pbDecode smakMessageMsg .unset (.over ([0x0A, 2, 8, 7] ++ [0x12, 0]) []) =
      pbDecodeInner smakMessageMsg true (.move { SmakChessMoveT.zero with id := 7 }) (.over [0x12, 0] []) :=
  pbDecode_append (a := [0x0A, 2, 8, 7]) (s := .over [] []) rfl

end SmakChess.Pb
