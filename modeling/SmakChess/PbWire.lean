import SmakChess.PbVarint

/-! A turn of the decoder takes a field of the wire format, so that it computes
what the fields of a message set one after another. -/

namespace SmakChess.Pb

open Protobuf

section Turn

variable {σ α β : Type} {desc : PbMsgdesc σ} {dest dest' : σ} {f : WireField} {v : WireValue}
  {bs rest t : List UInt8} {n w : Nat} {a : β}

theorem pbSkipBytes_ok {as : List UInt8} (h : takeBytes n bs = some (as, rest)) :
    pbSkipBytes n (.over bs t) = .ok ((), .over rest t) := by
  obtain ⟨hlen, -⟩ := length_of_takeBytes h
  unfold takeBytes at h
  split_ifs at h with hn
  obtain ⟨rfl, rfl⟩ := by simpa using h
  have hread := pbRead_over (bs.take n) (bs.drop n) t
  rw [List.take_append_drop, hlen] at hread
  rw [pbSkipBytes, bind_of_ok hread]
  rfl

/-- A field that is not known is skipped. -/
theorem pbSkipField_ok (hlen : bs.length < 2 ^ 32) (h : decodeValue w bs = some (v, rest)) :
    pbSkipField w (.over bs t) = .ok ((), .over rest t) := by
  unfold decodeValue at h
  split at h
  · obtain ⟨r, hr, heq⟩ := Option.map_eq_some_iff.mp h
    obtain ⟨-, rfl⟩ := by simpa using heq
    exact pbSkipVarint_ok hr
  · obtain ⟨r, hr, heq⟩ := Option.map_eq_some_iff.mp h
    obtain ⟨-, rfl⟩ := by simpa using heq
    exact pbSkipBytes_ok hr
  · obtain ⟨r, hr, htake⟩ := Option.bind_eq_some_iff.mp h
    obtain ⟨r', hr', heq⟩ := Option.map_eq_some_iff.mp htake
    obtain ⟨-, rfl⟩ := by simpa using heq
    obtain ⟨hsize, hsum⟩ := length_of_takeBytes hr'
    have hle := encodeVarint_length_le hr
    change (pbDecodeVarint32 >>= pbSkipBytes) _ = _
    rw [bind_of_ok (pbDecodeVarint32_ok hr (by omega))]
    exact pbSkipBytes_ok hr'
  · obtain ⟨r, hr, heq⟩ := Option.map_eq_some_iff.mp h
    obtain ⟨-, rfl⟩ := by simpa using heq
    exact pbSkipBytes_ok hr
  · cases h

/-- A decoder of the contents of a field reads a value of the wire format as `a`. -/
def Content (content : Read β) (v : WireValue) (a : β) : Prop :=
  ∀ bs rest t, bs.length < 2 ^ 32 → decodeValue v.wireType bs = some (v, rest) →
    content (.over bs t) = .ok (a, .over rest t)

theorem Content.bind_pure {content : Read α} {v : WireValue} {a : α} (h : Content content v a)
    (g : α → β) : Content (content >>= fun a => pure (g a)) v (g a) :=
  fun bs rest t hlen hv => by
    rw [bind_of_ok (h bs rest t hlen hv)]
    rfl

theorem content_pbDecVarint {dataSize size : Nat} (hsize : uintSize dataSize = some size)
    (hn : n < size) : Content (pbDecVarint dataSize) (.varint n) n := by
  intro bs rest t _ h
  obtain ⟨r, hr, heq⟩ := Option.map_eq_some_iff.mp h
  obtain ⟨rfl, rfl⟩ := by simpa using heq
  rw [pbDecVarint, bind_of_ok (pbDecodeVarint_ok hr)]
  simp only [hsize, Nat.mod_eq_of_lt hn, ne_eq, not_true_eq_false, if_false]
  rfl

theorem content_pbDecodeBool (hn : n < 2 ^ 32) : Content pbDecodeBool (.varint n) (n != 0) := by
  intro bs rest t _ h
  obtain ⟨r, hr, heq⟩ := Option.map_eq_some_iff.mp h
  obtain ⟨rfl, rfl⟩ := by simpa using heq
  rw [pbDecodeBool, bind_of_ok (pbDecodeVarint32_ok hr hn)]
  rfl

theorem pbDecodeVarint32_bytes {as : List UInt8} (hlen : bs.length < 2 ^ 32)
    (h : decodeValue 2 bs = some (.bytes as, rest)) : ∃ bs', bs' = as ++ rest ∧
      bs'.length < 2 ^ 32 ∧ pbDecodeVarint32 (.over bs t) = .ok (as.length, .over bs' t) := by
  obtain ⟨r, hr, htake⟩ := Option.bind_eq_some_iff.mp h
  obtain ⟨r', hr', heq⟩ := Option.map_eq_some_iff.mp htake
  obtain ⟨rfl, rfl⟩ := by simpa using heq
  obtain ⟨hsize, hsum⟩ := length_of_takeBytes hr'
  have hle := encodeVarint_length_le hr
  refine ⟨r.2, ?_, by omega, hsize ▸ pbDecodeVarint32_ok hr (by omega)⟩
  unfold takeBytes at hr'
  split_ifs at hr'
  obtain rfl := by simpa using hr'
  exact (List.take_append_drop _ _).symm

theorem content_pbDecBytes {dataSize : Nat} {as : List UInt8} {old : PbBytesArray}
    (has : as.length + bytesOffset ≤ dataSize) (hsize : dataSize ≤ pbSizeMax) :
    Content (pbDecBytes dataSize old) (.bytes as) ⟨as.length, as ++ old.bytes.drop as.length⟩ := by
  intro bs rest t hlen h
  obtain ⟨bs', rfl, -, hread⟩ := pbDecodeVarint32_bytes (t := t) hlen h
  rw [pbDecBytes, bind_of_ok hread, if_neg (by omega), if_neg (by omega),
    bind_of_ok (pbRead_over as rest t)]
  rfl

theorem content_fromSubstream {inner : Read β} {as : List UInt8}
    (h : ∀ t, inner (.over as t) = .ok (a, .over [] t)) :
    Content (fromSubstream inner) (.bytes as) a := by
  intro bs rest t hlen hv
  obtain ⟨bs', rfl, -, hread⟩ := pbDecodeVarint32_bytes (t := t) hlen hv
  have hmake : pbMakeStringSubstream (.over bs t) =
      .ok (.over as (rest ++ t), ⟨as ++ rest ++ t, rest.length⟩) := by
    rw [pbMakeStringSubstream, bind_of_ok hread]
    simp [PbIstream.over]
  rw [fromSubstream, hmake]
  change (inner _ >>= _) = _
  rw [h]
  rfl

/-- What the message becomes when the decoder meets the field `f`. -/
def Meets (desc : PbMsgdesc σ) (dest : σ) (f : WireField) (dest' : σ) : Prop :=
  Content (plainTurn desc dest f.value.wireType f.number) f.value dest'

theorem plainRead_ok (hlen : bs.length < 2 ^ 32) (hf : decodeField bs = some (f, rest))
    (h : Meets desc dest f dest') :
    plainRead desc dest (.over bs t) = .ok (dest', .over rest t) := by
  obtain ⟨⟨key, bs'⟩, hkey, hfield⟩ := Option.bind_eq_some_iff.mp hf
  split_ifs at hfield with hrange
  obtain ⟨⟨v, rest'⟩, hv, heq⟩ := Option.map_eq_some_iff.mp hfield
  obtain ⟨rfl, rfl⟩ := by simpa using heq
  have hle := encodeVarint_length_le hkey
  obtain ⟨hwire, -⟩ := payload_length_le hv
  have hand : key &&& 7 = key % 8 := Nat.and_two_pow_sub_one_eq_mod key 3
  have hshift : key >>> 3 = key / 8 := Nat.shiftRight_eq_div_pow key 3
  dsimp only at hrange hv hwire hle
  rw [plainRead, bind_of_ok (pbDecodeVarint32_ok hkey hrange.2), hand, hshift, hwire]
  exact h bs' rest' t (by omega) (hwire ▸ hv)

theorem meets_unknown (h0 : f.number ≠ 0) (h : f.number ∉ desc.tags) : Meets desc dest f dest := by
  have hfind : desc.fields.find? (fun field => field.tag == f.number) = none := by
    rw [List.find?_eq_none]
    intro field hfield htag
    exact h (List.mem_map.mpr ⟨field, hfield, by simpa using htag⟩)
  intro bs rest t hlen hv
  rw [plainTurn, if_neg h0, hfind]
  exact bind_of_ok (pbSkipField_ok hlen hv)

theorem meets_known {field : PbField σ} (h0 : f.number ≠ 0)
    (hfind : desc.fields.find? (fun field => field.tag == f.number) = some field)
    (h : Content (field.decodeField f.value.wireType dest) f.value dest') :
    Meets desc dest f dest' := by
  unfold Meets plainTurn
  rw [if_neg h0, hfind]
  exact h

theorem content_basic {wire tag : Nat} {content : σ → Read σ} (hw : v.wireType = wire)
    (h : Content (content dest) v dest') :
    Content ((PbField.basic wire tag content).decodeField v.wireType dest) v dest' := by
  have hdecode : (PbField.basic wire tag content).decodeField v.wireType dest = content dest :=
    if_neg (not_not_intro hw)
  rwa [hdecode]

end Turn

theorem decodeField_bounds {f : WireField} {bs rest : List UInt8}
    (h : decodeField bs = some (f, rest)) :
    f.number ≠ 0 ∧ ∀ as, f.value = .bytes as → as.length ≤ bs.length := by
  obtain ⟨⟨key, bs'⟩, hkey, hfield⟩ := Option.bind_eq_some_iff.mp h
  split_ifs at hfield with hrange
  obtain ⟨⟨v, rest'⟩, hv, heq⟩ := Option.map_eq_some_iff.mp hfield
  obtain ⟨rfl, rfl⟩ := by simpa using heq
  have hle := encodeVarint_length_le hkey
  obtain ⟨-, hpayload⟩ := payload_length_le hv
  dsimp only at hrange hpayload hle ⊢
  refine ⟨by omega, ?_⟩
  rintro as rfl
  simp only [WireValue.payload, List.length_append] at hpayload
  omega

section Message

variable {σ α : Type} {desc : PbMsgdesc σ} {set : α → WireField → Option α} {a : α}
  {bs : List UInt8}

/-- When every field that `set` takes is met with the same outcome, so is every
message that the fields make up. -/
theorem pbDecodeInner_of_decodeMessage (view : σ → α) (dest : σ) (hr : desc.Reads) (ho : desc.Ordered)
    (hset : ∀ dest f a, f.number ≠ 0 → (∀ as, f.value = .bytes as → as.length < 2 ^ 32) →
      set (view dest) f = some a → ∃ dest', view dest' = a ∧ Meets desc dest f dest')
    (hlen : bs.length < 2 ^ 32) (h : decodeMessage set (view dest) bs = some a) :
    ∃ dest', view dest' = a ∧ ∀ t, pbDecodeInner desc true dest (.over bs t) = .ok (dest', .over [] t) := by
  obtain ⟨fs, hparse, hfold⟩ := Option.bind_eq_some_iff.mp h
  obtain ⟨k, hk, hfs⟩ : ∃ k, bs.length ≤ k ∧ decodeFields k bs = some fs := ⟨_, le_rfl, hparse⟩
  clear h hparse
  induction k generalizing bs fs dest with
  | zero =>
    obtain rfl := List.length_eq_zero_iff.mp (Nat.le_zero.mp hk)
    obtain rfl : [] = fs := by simpa [decodeFields] using hfs
    exact ⟨dest, by simpa using hfold, fun t => pbDecodeInner_nil dest⟩
  | succ k ih =>
    cases bs with
    | nil =>
      obtain rfl : [] = fs := by simpa [decodeFields] using hfs
      exact ⟨dest, by simpa using hfold, fun t => pbDecodeInner_nil dest⟩
    | cons c bs =>
      obtain ⟨⟨f, rest⟩, hf, hrest⟩ := Option.bind_eq_some_iff.mp hfs
      obtain ⟨fs', hfs', rfl⟩ := Option.map_eq_some_iff.mp hrest
      have hsize := size_le_of_decodeField hf
      have hpos := size_pos f
      simp only [List.length_cons] at hlen hk hsize
      rw [List.foldlM_cons] at hfold
      obtain ⟨b, hb, hfold⟩ := Option.bind_eq_some_iff.mp hfold
      obtain ⟨hnumber, hbytes⟩ := decodeField_bounds hf
      have hbytes' (as : List UInt8) (has : f.value = .bytes as) : as.length < 2 ^ 32 := by
        have hle := hbytes as has
        simp only [List.length_cons] at hle
        omega
      obtain ⟨dest', rfl, hmeets⟩ := hset dest f b hnumber hbytes' hb
      have hshort : rest.length < 2 ^ 32 := by omega
      obtain ⟨dest'', hview, hloop⟩ := ih dest' hshort fs' hfold (by omega) hfs'
      refine ⟨dest'', hview, fun t => ?_⟩
      rw [pbDecodeInner_of_ok hr ho (by omega) (plainRead_ok (by simpa using hlen) hf hmeets)]
      exact hloop t

end Message

end SmakChess.Pb
