import SmakChess.PbReads
import Mathlib.Data.List.GetD

/-! The search for a field finds what a look-up by tag finds, and a message may be
decoded piece by piece. -/

namespace SmakChess.Pb

section Find

variable {tags : List Nat} {tag start index j k m : Nat}

theorem advanceIterator_lt (h : 0 < k) : advanceIterator k index < k := by
  unfold advanceIterator
  split <;> omega

/-- Without coming across `start`, the loop goes up to the field. -/
theorem findLoop_found (hj : tags[j]? = some tag) (hne : ∀ i, m ≤ i → i < j → tags[i]? ≠ some tag)
    (hstart : ∀ i, m ≤ i → i < j → i ≠ start) (hm : advanceIterator tags.length index = m)
    (hmj : m ≤ j) (hk : j - m < k) : findLoop tags tag start k index = (true, j) := by
  have hlt : j < tags.length := (List.getElem?_eq_some_iff.mp hj).1
  induction k generalizing index m with
  | zero => omega
  | succ k ih =>
    rw [findLoop, hm]
    by_cases heq : m = j
    · subst heq
      have hget : tags.getD m 0 = tag := by simp [List.getD, hj]
      simp only [hget, and_self, if_true]
    · have hget : tags.getD m 0 ≠ tag := by
        intro hget
        apply hne m le_rfl (by omega)
        have hm' : m < tags.length := by omega
        rw [← hget, List.getD_eq_getElem _ _ hm']
        exact List.getElem?_eq_getElem hm'
      simp only [hget, and_false, if_false, if_neg (hstart m le_rfl (by omega))]
      exact ih (m := m + 1) (fun i hi => hne i (by omega)) (fun i hi => hstart i (by omega))
        (if_neg (by omega)) (by omega) (by omega)

/-- How many turns it takes from one index to another. -/
def turnsTo (count m start : Nat) : Nat := if m ≤ start then start - m else count - m + start

theorem findLoop_none (hnone : tag ∉ tags) (hm : advanceIterator tags.length index = m)
    (hlt : m < tags.length) (hstart : start < tags.length)
    (hk : turnsTo tags.length m start < k) : findLoop tags tag start k index = (false, start) := by
  induction k generalizing index m with
  | zero => omega
  | succ k ih =>
    have hget : tags.getD m 0 ≠ tag := by
      rintro rfl
      rw [List.getD_eq_getElem _ _ hlt] at hnone
      exact hnone (List.getElem_mem hlt)
    rw [findLoop, hm]
    simp only [hget, and_false, if_false]
    by_cases heq : m = start
    · rw [if_pos heq, heq]
    · rw [if_neg heq]
      have hpos : 0 < tags.length := by omega
      refine ih rfl (advanceIterator_lt hpos) ?_
      unfold advanceIterator
      unfold turnsTo at hk ⊢
      split_ifs at hk ⊢ <;> omega

variable (h : tags.Pairwise (· < ·))
include h

theorem le_getLastD (hmem : tag ∈ tags) : tag ≤ tags.getLastD 0 := by
  obtain ⟨l, x, rfl⟩ : ∃ l x, tags = l ++ [x] :=
    ⟨tags.dropLast, tags.getLast (List.ne_nil_of_mem hmem), (List.dropLast_append_getLast _).symm⟩
  rw [List.getLastD_concat]
  rcases List.mem_append.mp hmem with hl | hx
  · exact (List.pairwise_append.mp h).2.2 tag hl x (by simp) |>.le
  · rw [List.mem_singleton.mp hx]

theorem getElem?_inj {i : Nat} (hi : tags[i]? = some tag) (hj : tags[j]? = some tag) : i = j := by
  obtain ⟨hi', hi⟩ := List.getElem?_eq_some_iff.mp hi
  obtain ⟨hj', hj⟩ := List.getElem?_eq_some_iff.mp hj
  rcases Nat.lt_trichotomy i j with hlt | heq | hlt
  · have hlt' := List.pairwise_iff_getElem.mp h i j hi' hj' hlt
    omega
  · exact heq
  · have hlt' := List.pairwise_iff_getElem.mp h j i hj' hi' hlt
    omega

/-- A field is found from wherever the iterator stands. -/
theorem pbFieldIterFind_found (hi : index < tags.length) (hj : tags[j]? = some tag) :
    pbFieldIterFind tags (tags.getLastD 0) index tag = (true, j) := by
  have hlt : j < tags.length := (List.getElem?_eq_some_iff.mp hj).1
  have hget : tags.getD index 0 = tags[index] := List.getD_eq_getElem _ _ hi
  have hjtag : tags[j] = tag := (List.getElem?_eq_some_iff.mp hj).2
  unfold pbFieldIterFind
  by_cases heq : tags.getD index 0 = tag
  · have hij : index = j := getElem?_inj h
      (by rw [List.getElem?_eq_getElem hi, ← hget, heq]) hj
    rw [if_pos heq, hij]
  · have hle : tag ≤ tags.getLastD 0 := le_getLastD h (List.mem_of_getElem? hj)
    have hne (i : Nat) (_ : i < j) : tags[i]? ≠ some tag := fun hi => by
      have := getElem?_inj h hi hj
      omega
    rw [if_neg heq, if_neg (Nat.not_lt.mpr hle)]
    split
    next hback =>
      have hji : j < index := by
        by_contra hge
        have hlt' := (List.pairwise_iff_getElem.mp h index j hi hlt)
        by_cases hij : index = j
        · subst hij
          exact heq (hget.trans hjtag)
        · have := hlt' (by omega)
          omega
      exact findLoop_found hj (fun i _ => hne i) (fun i _ hi => by omega)
        (if_pos (by omega)) (Nat.zero_le j) (by omega)
    next hforth =>
      have hij : index < j := by
        by_contra hge
        by_cases hij : index = j
        · subst hij
          exact heq (hget.trans hjtag)
        · have := List.pairwise_iff_getElem.mp h j index hlt hi (by omega)
          omega
      exact findLoop_found hj (fun i _ => hne i) (fun i hi _ => by omega)
        (if_neg (by omega)) hij (by omega)

omit h in
theorem pbFieldIterFind_none (hi : index < tags.length) (hnone : tag ∉ tags) :
    pbFieldIterFind tags (tags.getLastD 0) index tag = (false, index) := by
  have hpos : 0 < tags.length := by omega
  have hget : tags.getD index 0 ≠ tag := by
    rintro rfl
    rw [List.getD_eq_getElem _ _ hi] at hnone
    exact hnone (List.getElem_mem hi)
  unfold pbFieldIterFind
  rw [if_neg hget]
  split
  · rfl
  · refine findLoop_none hnone rfl (advanceIterator_lt hpos) hi ?_
    unfold advanceIterator turnsTo
    split_ifs <;> omega

end Find

section Loop

variable {σ : Type} {desc : PbMsgdesc σ} {index k k' : Nat} {dest dest' : σ} {bs a b t : List UInt8}

/-- The fields are in the order of their tags, as the generator writes them. -/
structure PbMsgdesc.Ordered (desc : PbMsgdesc σ) : Prop where
  tags : desc.tags.Pairwise (· < ·)
  fields : 0 < desc.fields.length

/-- A turn with the field looked up by its tag. -/
def plainTurn (desc : PbMsgdesc σ) (dest : σ) (wireType tag : Nat) : Read σ :=
  if tag = 0 then returnError "zero tag"
  else
    match desc.fields.find? fun field => field.tag == tag with
    | some field => field.decodeField wireType dest
    | none => do
      pbSkipField wireType
      pure dest

theorem find?_of_mem_tags (ho : desc.Ordered) {tag : Nat} (h : tag ∈ desc.tags) :
    ∃ (j : Nat) (field : PbField σ), desc.tags[j]? = some tag ∧ desc.fields[j]? = some field ∧
      desc.fields.find? (fun field => field.tag == tag) = some field := by
  obtain ⟨field, hfield, rfl⟩ := List.mem_map.mp h
  obtain ⟨j, hj, rfl⟩ := List.mem_iff_getElem.mp hfield
  have htag : desc.tags[j]? = some desc.fields[j].tag := by
    simp [PbMsgdesc.tags, List.getElem?_eq_getElem hj]
  refine ⟨j, desc.fields[j], htag, List.getElem?_eq_getElem hj, ?_⟩
  rw [List.find?_eq_some_iff_getElem]
  refine ⟨by simp, j, hj, rfl, fun i hi => ?_⟩
  by_contra hsame
  have hitag : desc.tags[i]? = some desc.fields[j].tag := by
    have heq : desc.fields[i].tag = desc.fields[j].tag := by simpa using hsame
    simp [PbMsgdesc.tags, heq, List.getElem?_eq_getElem (hi.trans hj)]
  have hij := getElem?_inj ho.tags hitag htag
  omega

theorem decodeTurn_eq (ho : desc.Ordered) (hi : index < desc.fields.length) (dest : σ)
    (wireType tag : Nat) : ∃ j < desc.fields.length, decodeTurn desc index dest wireType tag =
      plainTurn desc dest wireType tag >>= fun dest => pure (j, dest) := by
  have hlen : desc.tags.length = desc.fields.length := List.length_map ..
  unfold decodeTurn plainTurn
  by_cases h0 : tag = 0
  · exact ⟨index, hi, by simp only [h0, if_true]; rfl⟩
  by_cases hmem : tag ∈ desc.tags
  · obtain ⟨j, field, htag, hfield, hfind⟩ := find?_of_mem_tags ho hmem
    refine ⟨j, (List.getElem?_eq_some_iff.mp hfield).1, ?_⟩
    rw [if_neg h0, if_neg h0, PbMsgdesc.largestTag,
      pbFieldIterFind_found ho.tags (hlen ▸ hi) htag]
    simp only [hfield, hfind]
  · have hfind : desc.fields.find? (fun field => field.tag == tag) = none := by
      rw [List.find?_eq_none]
      intro field hfield htag
      exact hmem (List.mem_map.mpr ⟨field, hfield, by simpa using htag⟩)
    refine ⟨index, hi, ?_⟩
    rw [if_neg h0, if_neg h0, PbMsgdesc.largestTag, pbFieldIterFind_none (hlen ▸ hi) hmem]
    simp only [hfind, bind_assoc, pure_bind]

/-- A whole turn, with the tag. -/
def plainRead (desc : PbMsgdesc σ) (dest : σ) : Read σ := do
  let temp ← pbDecodeVarint32
  plainTurn desc dest (temp &&& 7) (temp >>> 3)

/-- The first byte of a tag is there, so `eof` is never set. -/
theorem pbDecodeTag_cons (c : UInt8) (bs t : List UInt8) :
    pbDecodeTag (.over (c :: bs) t) = ((pbDecodeVarint32 (.over (c :: bs) t)).mapError
      fun e => (e, false)).map fun r => ((r.1 &&& 7, r.1 >>> 3), r.2) := by
  simp only [pbDecodeTag, pbDecodeVarint32, pbDecodeVarint32Eof, pbReadbyte_cons]
  cases varint32Rest c.toNat (.over bs t) <;> rfl

theorem decodeLoop_nil (k index : Nat) (dest : σ) :
    decodeLoop desc k index dest (.over [] t) = .ok (dest, .over [] t) := by
  cases k <;> rfl

theorem decodeLoop_cons (k index : Nat) (dest : σ) (c : UInt8) (bs t : List UInt8) :
    decodeLoop desc (k + 1) index dest (.over (c :: bs) t) =
      (pbDecodeVarint32 >>= fun temp => decodeTurn desc index dest (temp &&& 7) (temp >>> 3) >>=
        fun r => decodeLoop desc k r.1 r.2) (.over (c :: bs) t) := by
  have hpos : (PbIstream.over (c :: bs) t).bytesLeft ≠ 0 := Nat.succ_ne_zero _
  simp only [decodeLoop, if_neg hpos, pbDecodeTag_cons, bind, StateT.bind, Except.bind]
  cases pbDecodeVarint32 (.over (c :: bs) t) <;> rfl

theorem decodeLoop_of_ok (ho : desc.Ordered) (hi : index < desc.fields.length) {c : UInt8}
    {s : PbIstream} (h : plainRead desc dest (.over (c :: bs) t) = .ok (dest', s)) :
    ∃ j < desc.fields.length,
      decodeLoop desc (k + 1) index dest (.over (c :: bs) t) = decodeLoop desc k j dest' s := by
  cases hv : pbDecodeVarint32 (.over (c :: bs) t) with
  | error e => simp [plainRead, bind_of_error hv] at h
  | ok r =>
    obtain ⟨temp, s₁⟩ := r
    rw [plainRead, bind_of_ok hv] at h
    obtain ⟨j, hj, hturn⟩ := decodeTurn_eq ho hi dest (temp &&& 7) (temp >>> 3)
    refine ⟨j, hj, ?_⟩
    rw [decodeLoop_cons, bind_of_ok hv, hturn, bind_assoc, bind_of_ok h]
    rfl

theorem decodeLoop_of_error (ho : desc.Ordered) (hi : index < desc.fields.length) {c : UInt8}
    {e : PbError} (h : plainRead desc dest (.over (c :: bs) t) = .error e) :
    decodeLoop desc (k + 1) index dest (.over (c :: bs) t) = .error e := by
  cases hv : pbDecodeVarint32 (.over (c :: bs) t) with
  | error e' =>
    rw [plainRead, bind_of_error hv] at h
    rw [decodeLoop_cons, bind_of_error hv, h]
  | ok r =>
    obtain ⟨temp, s₁⟩ := r
    rw [plainRead, bind_of_ok hv] at h
    obtain ⟨j, hj, hturn⟩ := decodeTurn_eq ho hi dest (temp &&& 7) (temp >>> 3)
    rw [decodeLoop_cons, bind_of_ok hv, hturn, bind_assoc, bind_of_error h]

end Loop

/-! Reading fields. -/

section Messages

variable {σ τ : Type} {desc : PbMsgdesc σ} {sub : PbMsgdesc τ} {index index' k k' : Nat}
  {dest dest' : σ} {a b bs t : List UInt8}

def PbField.Reads (field : PbField σ) : Prop :=
  ∀ wireType dest, Pb.Reads (field.decodeField wireType dest)

def PbMsgdesc.Reads (desc : PbMsgdesc σ) : Prop := ∀ field ∈ desc.fields, field.Reads

theorem reads_basic {wire tag : Nat} {content : σ → Read σ} (h : ∀ dest, Reads (content dest)) :
    (PbField.basic wire tag content).Reads :=
  fun _ dest => .ite (reads_returnError _) (h dest)

theorem reads_bool (tag : Nat) (pData : σ → Bool → σ) : (PbField.bool tag pData).Reads :=
  reads_basic fun _ => reads_pbDecodeBool.bind fun _ => reads_pure _

theorem reads_uvarint (tag dataSize : Nat) (pData : σ → Nat → σ) :
    (PbField.uvarint tag dataSize pData).Reads :=
  reads_basic fun _ => (reads_pbDecVarint dataSize).bind fun _ => reads_pure _

theorem reads_bytes (tag dataSize : Nat) (get : σ → PbBytesArray) (pData : σ → PbBytesArray → σ) :
    (PbField.bytes tag dataSize get pData).Reads :=
  reads_basic fun dest => (reads_pbDecBytes dataSize (get dest)).bind fun _ => reads_pure _

theorem reads_plainTurn (hr : desc.Reads) (dest : σ) (wireType tag : Nat) :
    Reads (plainTurn desc dest wireType tag) := by
  unfold plainTurn
  refine .ite (reads_returnError _) ?_
  split
  next field hfind => exact hr field (List.mem_of_find?_eq_some hfind) wireType dest
  · exact (reads_pbSkipField wireType).bind fun _ => reads_pure dest

/-- A turn takes at least the first byte of the tag. -/
theorem reads_plainRead (hr : desc.Reads) (dest : σ) (c : UInt8) (bs : List UInt8) :
    Fails (plainRead desc dest) (c :: bs) ∨ ∃ dest' used rest, used ++ rest = bs ∧
      ∀ r t, plainRead desc dest (.over (c :: (used ++ r)) t) = .ok (dest', .over r t) := by
  have hrest : Reads (varint32Rest c.toNat >>= fun temp =>
      plainTurn desc dest (temp &&& 7) (temp >>> 3)) :=
    (reads_varint32Rest c.toNat).bind fun temp => reads_plainTurn hr dest _ _
  have hread (bs t : List UInt8) : plainRead desc dest (.over (c :: bs) t) =
      (varint32Rest c.toNat >>= fun temp =>
        plainTurn desc dest (temp &&& 7) (temp >>> 3)) (.over bs t) := by
    rw [plainRead, pbDecodeVarint32_eq, bind_assoc, bind_of_ok (pbReadbyte_cons c)]
  rcases hrest bs with ⟨msg, he⟩ | ⟨dest', used, rest, hbs, hok⟩
  · exact .inl ⟨msg, fun t => (hread bs t).trans (he t)⟩
  · exact .inr ⟨dest', used, rest, hbs, fun r t => (hread _ t).trans (hok r t)⟩

/-- With a turn for every byte, it does not matter how many turns are left nor
where the iterator stands. -/
theorem decodeLoop_irrel (hr : desc.Reads) (ho : desc.Ordered) (hk : bs.length ≤ k)
    (hk' : bs.length ≤ k') (hi : index < desc.fields.length) (hi' : index' < desc.fields.length) :
    decodeLoop desc k index dest (.over bs t) = decodeLoop desc k' index' dest (.over bs t) := by
  induction k generalizing k' index index' dest bs with
  | zero =>
    obtain rfl := List.length_eq_zero_iff.mp (Nat.le_zero.mp hk)
    rw [decodeLoop_nil, decodeLoop_nil]
  | succ k ih =>
    cases bs with
    | nil => rw [decodeLoop_nil, decodeLoop_nil]
    | cons c bs =>
      cases k' with
      | zero => exact absurd hk' (Nat.not_succ_le_zero _)
      | succ k' =>
        rcases reads_plainRead hr dest c bs with ⟨msg, he⟩ | ⟨dest', used, rest, rfl, hok⟩
        · rw [decodeLoop_of_error ho hi (he t), decodeLoop_of_error ho hi' (he t)]
        · obtain ⟨j, hj, hloop⟩ := decodeLoop_of_ok (k := k) ho hi (hok rest t)
          obtain ⟨j', hj', hloop'⟩ := decodeLoop_of_ok (k := k') ho hi' (hok rest t)
          simp only [List.length_cons, List.length_append] at hk hk'
          rw [hloop, hloop']
          exact ih (by omega) (by omega) hj hj'

theorem pbDecodeInner_nil (dest : σ) :
    pbDecodeInner desc true dest (.over [] t) = .ok (dest, .over [] t) := rfl

theorem pbDecodeInner_of_error (ho : desc.Ordered) {c : UInt8} {e : PbError}
    (h : plainRead desc dest (.over (c :: bs) t) = .error e) :
    pbDecodeInner desc true dest (.over (c :: bs) t) = .error e :=
  decodeLoop_of_error ho ho.fields h

/-- One turn, and the rest of the message. -/
theorem pbDecodeInner_of_ok (hr : desc.Reads) (ho : desc.Ordered) {c : UInt8} {rest : List UInt8}
    (hlen : rest.length ≤ bs.length)
    (h : plainRead desc dest (.over (c :: bs) t) = .ok (dest', .over rest t)) :
    pbDecodeInner desc true dest (.over (c :: bs) t) = pbDecodeInner desc true dest' (.over rest t) := by
  obtain ⟨j, hj, hloop⟩ := decodeLoop_of_ok (k := bs.length) ho ho.fields h
  exact hloop.trans (decodeLoop_irrel hr ho hlen le_rfl hj ho.fields)

theorem readsAll_pbDecodeInner_noinit (hr : desc.Reads) (ho : desc.Ordered) (dest : σ) :
    ReadsAll (pbDecodeInner desc true dest) := by
  intro bs
  induction hn : bs.length using Nat.strong_induction_on generalizing bs dest with
  | _ n ih =>
    cases bs with
    | nil => exact .inr ⟨dest, fun t => pbDecodeInner_nil dest⟩
    | cons c bs =>
      rcases reads_plainRead hr dest c bs with ⟨msg, he⟩ | ⟨dest', used, rest, rfl, hok⟩
      · exact .inl ⟨msg, fun t => pbDecodeInner_of_error ho (he t)⟩
      · have hle : rest.length ≤ (used ++ rest).length := by simp
        have hlen : rest.length < n := by
          rw [← hn, List.length_cons]
          omega
        have hstep (t : List UInt8) := pbDecodeInner_of_ok hr ho hle (hok rest t)
        rcases ih _ hlen dest' rest rfl with ⟨msg, he⟩ | ⟨m, hm⟩
        · exact .inl ⟨msg, fun t => (hstep t).trans (he t)⟩
        · exact .inr ⟨m, fun t => (hstep t).trans (hm t)⟩

theorem readsAll_pbDecodeInner (hr : desc.Reads) (ho : desc.Ordered) (noinit : Bool) (dest : σ) :
    ReadsAll (pbDecodeInner desc noinit dest) := by
  cases noinit with
  | true => exact readsAll_pbDecodeInner_noinit hr ho dest
  | false => exact readsAll_pbDecodeInner_noinit hr ho (desc.setToDefaults dest)

theorem reads_oneof (tag : Nat) (hr : sub.Reads) (ho : sub.Ordered) (get : σ → τ)
    (pData : σ → τ → σ) : (PbField.oneof tag sub get pData).Reads :=
  reads_basic fun dest =>
    (readsAll_pbDecodeInner hr ho true (get dest)).fromSubstream.bind fun _ => reads_pure _

/-- Two messages one behind the other are the second one decoded into the first. -/
theorem pbDecodeInner_append (hr : desc.Reads) (ho : desc.Ordered) {s : PbIstream}
    (h : pbDecodeInner desc true dest (.over a []) = .ok (dest', s)) :
    pbDecodeInner desc true dest (.over (a ++ b) t) = pbDecodeInner desc true dest' (.over b t) := by
  induction hn : a.length using Nat.strong_induction_on generalizing a dest with
  | _ n ih =>
    cases a with
    | nil =>
      rw [pbDecodeInner_nil] at h
      obtain ⟨rfl, -⟩ := by simpa using h
      rfl
    | cons c a =>
      rcases reads_plainRead hr dest c a with ⟨msg, he⟩ | ⟨dest'', used, rest, rfl, hok⟩
      · rw [pbDecodeInner_of_error ho (he [])] at h
        cases h
      · have hle : rest.length ≤ (used ++ rest).length := by simp
        have hlen : rest.length < n := by
          rw [← hn, List.length_cons]
          omega
        rw [pbDecodeInner_of_ok hr ho hle (hok rest [])] at h
        rw [List.cons_append, List.append_assoc,
          pbDecodeInner_of_ok hr ho (by simp) (hok (rest ++ b) t)]
        exact ih _ hlen h rfl

end Messages

end SmakChess.Pb
