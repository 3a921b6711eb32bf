import SmakChess.PbEncode

/-! What the encoder does to any stream: it writes the fields of the wire format,
or stops where they no longer fit. -/

namespace SmakChess.Pb

open Protobuf

namespace PbOstream

/-- The stream once `bs` has been written. -/
def plus (s : PbOstream) (bs : List UInt8) : PbOstream :=
  { s with
    state := if s.callback then s.state ++ bs else s.state
    bytesWritten := s.bytesWritten + bs.length }

def full (s : PbOstream) : PbOstream := { s with errmsg := some "stream full" }

/-- A stream that has met no error, and is within its buffer. -/
structure Ready (s : PbOstream) : Prop where
  errmsg : s.errmsg = none
  within : s.callback = true → s.bytesWritten ≤ s.maxSize

/-- All of `bs` can be written. -/
def Fits (s : PbOstream) (bs : List UInt8) : Prop :=
  s.callback = true → s.bytesWritten + bs.length ≤ s.maxSize

end PbOstream

/-- On every stream the action writes `bs`, or what comes before a write that
does not fit. -/
structure Writes (act : PbOstream → Bool × PbOstream) (bs : List UInt8) : Prop where
  accepts : ∀ s : PbOstream, s.Ready → s.bytesWritten + bs.length < 2 ^ 32 → s.Fits bs →
    act s = (true, s.plus bs)
  refuses : ∀ s : PbOstream, s.Ready → s.bytesWritten + bs.length < 2 ^ 32 → ¬ s.Fits bs →
    ∃ pre, pre <+: bs ∧ s.Fits pre ∧ act s = (false, (s.plus pre).full)

section Writes

variable {a b : PbOstream → Bool × PbOstream} {bs cs : List UInt8} {s : PbOstream} {n : Nat}

theorem plus_nil : s.plus [] = s := by simp [PbOstream.plus]

theorem plus_append : (s.plus bs).plus cs = s.plus (bs ++ cs) := by
  by_cases h : s.callback = true <;> simp [PbOstream.plus, h, Nat.add_assoc]

theorem ready_plus (h : s.Ready) (hf : s.Fits bs) : (s.plus bs).Ready :=
  ⟨h.errmsg, hf⟩

theorem fits_append : s.Fits (bs ++ cs) ↔ s.Fits bs ∧ (s.plus bs).Fits cs := by
  simp only [PbOstream.Fits, PbOstream.plus, List.length_append]
  by_cases h : s.callback = true
  · simp only [h, forall_const]
    omega
  · simp [h]

theorem writes_nil : Writes (fun s => (true, s)) [] where
  accepts s _ _ _ := by rw [plus_nil]
  refuses s h _ hf := by
    refine absurd (fun hc => ?_) hf
    simpa using h.within hc

theorem Writes.andThen (ha : Writes a bs) (hb : Writes b cs) :
    Writes (fun s => andThen (a s) b) (bs ++ cs) where
  accepts s h hlen hf := by
    obtain ⟨hfa, hfb⟩ := fits_append.mp hf
    rw [List.length_append] at hlen
    have hlen' : (s.plus bs).bytesWritten + cs.length < 2 ^ 32 := by
      simp only [PbOstream.plus]
      omega
    rw [ha.accepts s h (by omega) hfa, Pb.andThen, if_pos rfl,
      hb.accepts _ (ready_plus h hfa) hlen' hfb, plus_append]
  refuses s h hlen hf := by
    rw [List.length_append] at hlen
    by_cases hfa : s.Fits bs
    · have hfb : ¬ (s.plus bs).Fits cs := fun hfb => hf (fits_append.mpr ⟨hfa, hfb⟩)
      have hlen' : (s.plus bs).bytesWritten + cs.length < 2 ^ 32 := by
        simp only [PbOstream.plus]
        omega
      obtain ⟨pre, hpre, hfit, he⟩ := hb.refuses _ (ready_plus h hfa) hlen' hfb
      refine ⟨bs ++ pre, (List.prefix_append_right_inj bs).mpr hpre,
        fits_append.mpr ⟨hfa, hfit⟩, ?_⟩
      rw [ha.accepts s h (by omega) hfa, Pb.andThen, if_pos rfl, he, plus_append]
    · obtain ⟨pre, hpre, hfit, he⟩ := ha.refuses s h (by omega) hfa
      refine ⟨pre, hpre.trans (List.prefix_append bs cs), hfit, ?_⟩
      rw [he]
      rfl

theorem writes_pbWrite (buf : List UInt8) (hn : n ≤ buf.length) :
    Writes (pbWrite buf n) (buf.take n) where
  accepts s h hlen hf := by
    have htake : (buf.take n).length = n := List.length_take_of_le hn
    have hsize : sizeT (s.bytesWritten + n) = s.bytesWritten + n := Nat.mod_eq_of_lt (by omega)
    by_cases hw : 0 < n ∧ s.callback = true
    · have hmax := hf hw.2
      rw [pbWrite, if_pos hw, hsize, if_neg (by omega)]
      simp [PbOstream.bufWrite, PbOstream.wrote, PbOstream.plus, hw.2, hsize, htake]
    · rw [pbWrite, if_neg hw]
      by_cases hc : s.callback = true
      · obtain rfl : n = 0 := by
          by_contra hn0
          exact hw ⟨Nat.pos_of_ne_zero hn0, hc⟩
        simpa [PbOstream.wrote, PbOstream.plus] using hsize
      · simp [PbOstream.wrote, PbOstream.plus, hc, hsize, htake]
  refuses s h hlen hf := by
    have htake : (buf.take n).length = n := List.length_take_of_le hn
    have hsize : sizeT (s.bytesWritten + n) = s.bytesWritten + n := Nat.mod_eq_of_lt (by omega)
    have hc : s.callback = true := by
      by_contra hc
      exact hf fun h => absurd h hc
    have hfull : s.maxSize < s.bytesWritten + n := by
      by_contra hle
      exact hf fun _ => by omega
    have hwithin := h.within hc
    refine ⟨[], List.nil_prefix, fun _ => by simpa using hwithin, ?_⟩
    rw [pbWrite, if_pos ⟨by omega, hc⟩, hsize, if_pos (Or.inr hfull), plus_nil,
      PbOstream.returnError, h.errmsg]
    rfl

theorem writes_pbEncodeVarint (hn : n < 2 ^ 64) : Writes (pbEncodeVarint n) (encodeVarint n) := by
  by_cases h : n ≤ 0x7F
  · have hone := writes_pbWrite (n := 1) [UInt8.ofNat n] le_rfl
    have hvarint : encodeVarint n = [UInt8.ofNat n] := by
      rw [encodeVarint, putVarint, if_pos (by omega)]
    rw [show pbEncodeVarint n = pbWrite [UInt8.ofNat n] 1 by
      funext s
      rw [pbEncodeVarint, if_pos h], hvarint]
    exact hone
  · have hall := writes_pbWrite (encodeVarint n) le_rfl
    rw [List.take_length] at hall
    rw [show pbEncodeVarint n = pbWrite (encodeVarint n) (encodeVarint n).length by
      funext s
      rw [pbEncodeVarint, if_neg h, pbEncodeVarint32, varint32Buffer_eq hn]]
    exact hall

theorem sized (ha : Writes a bs) (hlen : bs.length < 2 ^ 32) :
    a .sizing = (true, ⟨false, [], 0, bs.length, none⟩) := by
  rw [ha.accepts .sizing ⟨rfl, nofun⟩ (by simpa [PbOstream.sizing] using hlen) nofun]
  simp [PbOstream.plus, PbOstream.sizing]

/-- `pb_encode_submessage` after the length: the second pass writes as many
bytes as the first one has counted. -/
theorem writes_body (ha : Writes a bs) (hlen : bs.length < 2 ^ 32) :
    Writes (submessageBody a bs.length) bs where
  accepts s h hs hf := by
    have hsize : sizeT (s.bytesWritten + bs.length) = s.bytesWritten + bs.length :=
      Nat.mod_eq_of_lt hs
    by_cases hc : s.callback = true
    · have hmax := hf hc
      have hpass := ha.accepts ⟨s.callback, s.state, bs.length, 0, none⟩ ⟨rfl, fun _ => Nat.zero_le _⟩
        (by simpa using hlen) (fun _ => by simp)
      simp only [submessageBody, hc, Bool.true_eq_false, if_false, hsize, if_neg (Nat.not_lt.mpr hmax)]
      rw [hc] at hpass
      rw [hpass]
      simp [PbOstream.plus, hc, hsize, h.errmsg]
    · simp only [Bool.not_eq_true] at hc
      simp [submessageBody, hc, pbWrite, PbOstream.wrote, PbOstream.plus, hsize]
  refuses s h hs hf := by
    have hsize : sizeT (s.bytesWritten + bs.length) = s.bytesWritten + bs.length :=
      Nat.mod_eq_of_lt hs
    have hc : s.callback = true := by
      by_contra hc
      exact hf fun h => absurd h hc
    have hfull : s.maxSize < s.bytesWritten + bs.length := by
      by_contra hle
      exact hf fun _ => by omega
    refine ⟨[], List.nil_prefix, fun _ => by simpa using h.within hc, ?_⟩
    simp [submessageBody, hc, hsize, hfull, plus_nil, PbOstream.returnError, PbOstream.full,
      h.errmsg]

theorem writes_pbEncodeSubmessage (ha : Writes a bs) (hlen : bs.length < 2 ^ 32) :
    Writes (pbEncodeSubmessage a) (encodeVarint bs.length ++ bs) := by
  have hsub : pbEncodeSubmessage a =
      fun s => andThen (pbEncodeVarint bs.length s) (submessageBody a bs.length) := by
    funext s
    simp [pbEncodeSubmessage, sized ha hlen]
  rw [hsub]
  exact (writes_pbEncodeVarint (by omega)).andThen (writes_body ha hlen)

theorem writes_pbEncodeTag {w : PbWireType} {tag : Nat} (htag : tag < 65536) :
    Writes (pbEncodeTag w tag) (encodeVarint (8 * tag + w.number)) := by
  have hnumber : w.number < 2 ^ 3 := by cases w <;> decide
  have hor : tag <<< 3 ||| w.number = 8 * tag + w.number := by
    rw [Nat.shiftLeft_eq, Nat.mul_comm]
    exact (Nat.two_pow_add_eq_or_of_lt hnumber tag).symm
  rw [show pbEncodeTag w tag = pbEncodeVarint (8 * tag + w.number) by
    funext s
    rw [pbEncodeTag, hor]]
  exact writes_pbEncodeVarint (by omega)

theorem writes_pbEncodeString (hn : n ≤ bs.length) (hlen : n < 2 ^ 64) :
    Writes (pbEncodeString bs n) (encodeVarint n ++ bs.take n) :=
  (writes_pbEncodeVarint hlen).andThen (writes_pbWrite bs hn)

end Writes

/-! What the encoder writes, as fields of the wire format. -/

mutual

def PbFieldIter.wire : PbFieldIter → List WireField
  | .bool tag pData => if pData then [⟨tag, .varint 1⟩] else []
  | .uvarint tag _ pData => if pData = 0 then [] else [⟨tag, .varint pData⟩]
  | .bytes tag _ pData =>
    if pData.size = 0 then [] else [⟨tag, .bytes (pData.bytes.take pData.size)⟩]
  | .oneof tag pSize pData => if pSize = tag then [⟨tag, .bytes (encodeFields (wires pData))⟩] else []

def wires : List PbFieldIter → List WireField
  | [] => []
  | field :: fields => field.wire ++ wires fields

end

mutual

/-- What the generator and the C types promise of a field. -/
def PbFieldIter.WellFormed : PbFieldIter → Prop
  | .bool tag _ => tag < 65536
  | .uvarint tag dataSize pData => tag < 65536 ∧
      (dataSize = 1 ∨ dataSize = 2 ∨ dataSize = 4 ∨ dataSize = 8) ∧ pData < 256 ^ dataSize
  | .bytes tag dataSize pData => tag < 65536 ∧ dataSize < 65536 ∧
      pData.size ≤ dataSize - bytesOffset ∧ dataSize - bytesOffset ≤ pData.bytes.length
  | .oneof tag _ pData => tag < 65536 ∧ WellFormed pData ∧ (encodeFields (wires pData)).length < 2 ^ 32

def WellFormed : List PbFieldIter → Prop
  | [] => True
  | field :: fields => field.WellFormed ∧ WellFormed fields

end

section Fields

theorem writes_field {w : PbWireType} {tag : Nat} {v : WireValue}
    {content : PbOstream → Bool × PbOstream} (htag : tag < 65536) (hw : v.wireType = w.number)
    (hc : Writes content v.payload) :
    Writes (fun s => andThen (pbEncodeTag w tag s) content) (encodeFields [⟨tag, v⟩]) := by
  have h := (writes_pbEncodeTag (w := w) htag).andThen hc
  simpa [encodeFields, WireField.encode, hw] using h

theorem encodeFields_append (fs gs : List WireField) :
    encodeFields (fs ++ gs) = encodeFields fs ++ encodeFields gs := List.flatMap_append

mutual

theorem writes_encodeField : ∀ field : PbFieldIter, field.WellFormed →
    Writes (encodeField field) (encodeFields field.wire)
  | .bool tag pData, htag => by
    cases pData with
    | false => exact writes_nil
    | true => exact writes_field htag rfl (writes_pbEncodeVarint (n := 1) (by decide))
  | .uvarint tag dataSize pData, ⟨htag, hsize, hdata⟩ => by
    have hbound : pData < 2 ^ 64 := by
      rcases hsize with rfl | rfl | rfl | rfl <;> omega
    by_cases h0 : pData = 0
    · subst h0
      exact writes_nil
    · have hcontent : Writes (pbEncVarint dataSize pData) (encodeVarint pData) := by
        rw [show pbEncVarint dataSize pData = pbEncodeVarint pData by
          funext s
          rw [pbEncVarint, if_pos hsize]]
        exact writes_pbEncodeVarint hbound
      have h := writes_field (w := .varint) (v := .varint pData) htag rfl hcontent
      simpa [encodeField, PbFieldIter.wire, pbCheckProto3DefaultValue, h0] using h
  | .bytes tag dataSize pData, ⟨htag, hdata, hsize, hbytes⟩ => by
    by_cases h0 : pData.size = 0
    · have hnil := writes_nil
      simpa [encodeField, PbFieldIter.wire, pbCheckProto3DefaultValue, h0, encodeFields] using hnil
    · have htake : (pData.bytes.take pData.size).length = pData.size :=
        List.length_take_of_le (by omega)
      have hcontent : Writes (pbEncBytes dataSize pData)
          (encodeVarint pData.size ++ pData.bytes.take pData.size) := by
        rw [show pbEncBytes dataSize pData = pbEncodeString pData.bytes pData.size by
          funext s
          rw [pbEncBytes, if_neg (by omega)]]
        exact writes_pbEncodeString (by omega) (by omega)
      have h := writes_field (w := .string) (v := .bytes (pData.bytes.take pData.size)) htag rfl
        (by simpa [WireValue.payload, htake] using hcontent)
      simpa [encodeField, PbFieldIter.wire, pbCheckProto3DefaultValue, h0] using h
  | .oneof tag pSize pData, ⟨htag, hfields, hlen⟩ => by
    by_cases hw : pSize = tag
    · have hcontent := writes_pbEncodeSubmessage (writes_pbEncode pData hfields) hlen
      have h := writes_field (w := .string) (v := .bytes (encodeFields (wires pData))) htag rfl hcontent
      simpa [encodeField, PbFieldIter.wire, hw] using h
    · have hnil := writes_nil
      simpa [encodeField, PbFieldIter.wire, hw, encodeFields] using hnil

theorem writes_pbEncode : ∀ fields : List PbFieldIter, WellFormed fields →
    Writes (pbEncode fields) (encodeFields (wires fields))
  | [], _ => writes_nil
  | field :: fields, ⟨hfield, hfields⟩ => by
    have h := (writes_encodeField field hfield).andThen (writes_pbEncode fields hfields)
    simpa [pbEncode, wires, encodeFields_append] using h

end

/-- A buffer takes the message exactly when it is long enough for the fields of
the wire format, which then are what it holds. Otherwise the encoder stops at a
write that does not fit, and nothing behind the buffer is written. -/
theorem pbEncode_fromBuffer (fields : List PbFieldIter) (bufsize : Nat) (h : WellFormed fields)
    (hlen : (encodeFields (wires fields)).length < 2 ^ 32) :
    pbGetEncodedSize fields = some (encodeFields (wires fields)).length ∧
      ((encodeFields (wires fields)).length ≤ bufsize →
        pbEncode fields (.fromBuffer bufsize) = (true, ⟨true, encodeFields (wires fields), bufsize,
          (encodeFields (wires fields)).length, none⟩)) ∧
      (bufsize < (encodeFields (wires fields)).length →
        ∃ pre, pre <+: encodeFields (wires fields) ∧ pre.length ≤ bufsize ∧
          pbEncode fields (.fromBuffer bufsize) =
            (false, ⟨true, pre, bufsize, pre.length, some "stream full"⟩)) := by
  have hw := writes_pbEncode fields h
  have hready : (PbOstream.fromBuffer bufsize).Ready := ⟨rfl, fun _ => Nat.zero_le _⟩
  have hsum : (PbOstream.fromBuffer bufsize).bytesWritten + (encodeFields (wires fields)).length <
      2 ^ 32 := by simpa [PbOstream.fromBuffer] using hlen
  refine ⟨?_, fun hle => ?_, fun hlt => ?_⟩
  · rw [pbGetEncodedSize, sized hw hlen]
    rfl
  · rw [hw.accepts _ hready hsum fun _ => by simpa [PbOstream.fromBuffer] using hle]
    simp [PbOstream.plus, PbOstream.fromBuffer]
  · have hfull : ¬ (PbOstream.fromBuffer bufsize).Fits (encodeFields (wires fields)) := by
      intro hf
      have hle := hf rfl
      simp only [PbOstream.fromBuffer] at hle
      omega
    obtain ⟨pre, hpre, hfit, he⟩ := hw.refuses _ hready hsum hfull
    refine ⟨pre, hpre, by simpa [PbOstream.fromBuffer] using hfit rfl, ?_⟩
    rw [he]
    simp [PbOstream.plus, PbOstream.full, PbOstream.fromBuffer]

end Fields

end SmakChess.Pb
