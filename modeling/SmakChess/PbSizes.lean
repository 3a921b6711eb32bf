import SmakChess.PbMessages

/-! How many bytes the decoder uses up for what it reads: no message becomes
larger than the bytes it is decoded from. -/

namespace SmakChess.Pb

open Protobuf

/-- What is read, and the number of bytes that are used up for it. -/
def Uses {α : Type} (f : Read α) (Q : α → Nat → Prop) : Prop :=
  ∀ bs t a s, f (.over bs t) = .ok (a, s) →
    ∃ used rest, bs = used ++ rest ∧ s = .over rest t ∧ Q a used.length

section Uses

variable {α β : Type} {f : Read α} {g : α → Read β} {a : α} {P : α → Nat → Prop}
  {Q : β → Nat → Prop} {bitpos result byte : Nat}

theorem uses_pure (h : P a 0) : Uses (pure a) P := by
  intro bs t a' s hok
  obtain ⟨rfl, rfl⟩ : a = a' ∧ PbIstream.over bs t = s := by
    cases hok
    exact ⟨rfl, rfl⟩
  exact ⟨[], bs, rfl, rfl, h⟩

theorem uses_returnError (msg : String) : Uses (returnError msg) P := nofun

theorem Uses.bind (hf : Uses f P) (hg : ∀ a m, P a m → Uses (g a) fun b n => Q b (m + n)) :
    Uses (f >>= g) Q := by
  intro bs t b s hok
  cases h : f (.over bs t) with
  | error e =>
    rw [bind_of_error h] at hok
    cases hok
  | ok r =>
    obtain ⟨a, s₁⟩ := r
    rw [bind_of_ok h] at hok
    obtain ⟨used, rest, rfl, rfl, hP⟩ := hf bs t a s₁ h
    obtain ⟨used', rest', rfl, rfl, hQ⟩ := hg a _ hP rest t b s hok
    exact ⟨used ++ used', rest', (List.append_assoc ..).symm, rfl, by rwa [List.length_append]⟩

theorem Uses.ite {p : Prop} [Decidable p] {f g : Read α} (hf : p → Uses f P) (hg : ¬ p → Uses g P) :
    Uses (if p then f else g) P := by
  split
  next h => exact hf h
  next h => exact hg h

theorem Uses.mono {P' : α → Nat → Prop} (hf : Uses f P) (h : ∀ a n, P a n → P' a n) : Uses f P' := by
  intro bs t a s hok
  obtain ⟨used, rest, hbs, hs, hP⟩ := hf bs t a s hok
  exact ⟨used, rest, hbs, hs, h a _ hP⟩

theorem Reads.uses (hf : Reads f) : Uses f fun _ _ => True := by
  intro bs t a s hok
  rcases hf bs with ⟨msg, he⟩ | ⟨a', used, rest, rfl, h⟩
  · rw [he] at hok
    cases hok
  · rw [h] at hok
    cases hok
    exact ⟨used, rest, rfl, rfl, trivial⟩

theorem uses_pbReadbyte : Uses pbReadbyte fun _ n => n = 1 := by
  intro bs t b s hok
  cases bs with
  | nil => cases hok
  | cons c bs =>
    rw [pbReadbyte_cons] at hok
    cases hok
    exact ⟨[b], bs, rfl, rfl, rfl⟩

theorem uses_pbRead (count : Nat) : Uses (pbRead count) fun bs n => bs.length = count ∧ n = count := by
  intro bs t as s hok
  by_cases hle : count ≤ bs.length
  · have htake : (bs.take count).length = count := List.length_take_of_le hle
    have hread := pbRead_over (bs.take count) (bs.drop count) t
    rw [List.take_append_drop, htake, hok] at hread
    cases hread
    exact ⟨bs.take count, bs.drop count, (List.take_append_drop _ _).symm, rfl, htake, htake⟩
  · rw [pbRead, if_neg (by omega), if_pos (by simpa [PbIstream.over] using hle)] at hok
    cases hok

theorem or_group_lt (h : result < 2 ^ bitpos) (byte : Nat) :
    result ||| (byte &&& 0x7F) <<< bitpos < 2 ^ (bitpos + 7) := by
  rw [and_7F, or_group h]
  exact group_lt h byte

theorem uses_varintLoop (k : Nat) (h : result < 2 ^ bitpos) :
    Uses (varintLoop k bitpos result) fun a n => 0 < n ∧ a < 2 ^ (bitpos + 7 * n) := by
  induction k generalizing bitpos result with
  | zero => exact uses_returnError _
  | succ k ih =>
    refine uses_pbReadbyte.bind fun byte m hm => .ite (fun _ => uses_returnError _) fun _ => ?_
    subst hm
    have hlt := or_group_lt h byte.toNat
    refine .ite (fun _ => (ih hlt).mono fun a n ha => ⟨by omega, ?_⟩) fun _ => uses_pure ⟨by decide, hlt⟩
    rw [show bitpos + 7 * (1 + n) = bitpos + 7 + 7 * n by omega]
    exact ha.2

theorem uses_varint32Step (h : result < 2 ^ bitpos) :
    Uses (varint32Step bitpos result byte) fun a n => n = 0 ∧ a < 2 ^ (bitpos + 7) := by
  have hpow : 2 ^ bitpos ≤ 2 ^ (bitpos + 7) := Nat.pow_le_pow_right (by decide) (by omega)
  refine .ite (fun _ => .ite (fun _ => uses_returnError _) fun _ => uses_pure ⟨rfl, by omega⟩) fun _ =>
    .ite (fun h28 => .ite (fun _ => uses_returnError _) fun _ => uses_pure ⟨rfl, ?_⟩) fun _ =>
    uses_pure ⟨rfl, or_group_lt h byte⟩
  rw [and_0F, or_group h, pow_add]
  have hmod : byte % 16 * 2 ^ bitpos ≤ 15 * 2 ^ bitpos := Nat.mul_le_mul_right _ (by omega)
  omega

theorem uses_varint32Loop (k : Nat) (h : result < 2 ^ bitpos) :
    Uses (varint32Loop k bitpos result) fun a n => 0 < n ∧ a < 2 ^ (bitpos + 7 * n) := by
  induction k generalizing bitpos result with
  | zero => exact uses_returnError _
  | succ k ih =>
    refine uses_pbReadbyte.bind fun byte m hm => (uses_varint32Step h).bind fun result' m' hr => ?_
    subst hm
    obtain ⟨rfl, hlt⟩ := hr
    refine .ite (fun _ => (ih hlt).mono fun a n ha => ⟨by omega, ?_⟩) fun _ => uses_pure ⟨by decide, hlt⟩
    rw [show bitpos + 7 * (1 + (0 + n)) = bitpos + 7 + 7 * n by omega]
    exact ha.2

/-- A number takes a byte for every seven bits. -/
theorem uses_pbDecodeVarint : Uses pbDecodeVarint fun a n => 0 < n ∧ a < 2 ^ (7 * n) :=
  have h : Uses (varintLoop 10 0 0) _ := uses_varintLoop 10 Nat.one_pos
  h.mono fun a n h => by simpa using h

theorem uses_pbDecodeVarint32 : Uses pbDecodeVarint32 fun a n => 0 < n ∧ a < 2 ^ (7 * n) := by
  rw [pbDecodeVarint32_eq]
  refine uses_pbReadbyte.bind fun byte m hm => ?_
  subst hm
  refine .ite (fun hbyte => uses_pure ⟨by decide, ?_⟩) fun _ => ?_
  · exact (and_80 _ byte.toNat_lt).mp hbyte
  · have hlt : byte.toNat &&& 0x7F < 2 ^ 7 := by
      rw [and_7F]
      omega
    refine (uses_varint32Loop 10 hlt).mono fun a n h => ⟨by omega, ?_⟩
    rw [show 7 * (1 + n) = 7 + 7 * n by omega]
    exact h.2

theorem uses_fromSubstream (hf : ReadsAll f) (hu : Uses f P) :
    Uses (fromSubstream f) fun a n => ∃ k < n, P a k := by
  intro bs t a s hok
  cases hv : pbDecodeVarint32 (.over bs t) with
  | error e =>
    have hmake : pbMakeStringSubstream (.over bs t) = .error e := bind_of_error hv
    rw [fromSubstream, hmake] at hok
    cases hok
  | ok r =>
    obtain ⟨size, s₁⟩ := r
    obtain ⟨used, rest, rfl, rfl, hpos, -⟩ := uses_pbDecodeVarint32 bs t size s₁ hv
    by_cases hlt : rest.length < size
    · have hmake : pbMakeStringSubstream (.over (used ++ rest) t) =
          .error (.errmsg "parent stream too short") := (bind_of_ok hv).trans (if_pos hlt)
      rw [fromSubstream, hmake] at hok
      cases hok
    · have htake : (rest.take size).length = size := List.length_take_of_le (by omega)
      have hmake : pbMakeStringSubstream (.over (used ++ rest) t) =
          .ok (.over (rest.take size) (rest.drop size ++ t), ⟨rest ++ t, rest.length - size⟩) := by
        rw [pbMakeStringSubstream, bind_of_ok hv]
        simp [PbIstream.over, htake, hlt, ← List.append_assoc]
      rw [fromSubstream, hmake] at hok
      change (f _ >>= _) = _ at hok
      rcases hf (rest.take size) with ⟨msg, he⟩ | ⟨a', ha⟩
      · rw [he] at hok
        cases hok
      · obtain ⟨used', rest', hsplit, hs, hP⟩ := hu _ _ _ _ (ha (rest.drop size ++ t))
        rw [ha] at hok
        cases hok
        have hrest' : 0 = rest'.length := congrArg PbIstream.bytesLeft hs
        obtain rfl := List.length_eq_zero_iff.mp hrest'.symm
        rw [List.append_nil] at hsplit
        refine ⟨used ++ used', rest.drop size, ?_, ?_, used'.length, ?_, hP⟩
        · rw [← hsplit, List.append_assoc, List.take_append_drop]
        · simp [PbIstream.over]
        · rw [List.length_append]
          omega

end Uses

section Messages

variable {σ : Type} {desc : PbMsgdesc σ} {R : σ → Nat → σ → Prop}

/-- When every field takes the message to one that it may become, so does the
whole message. -/
theorem uses_pbDecodeInner (hr : desc.Reads) (ho : desc.Ordered) (hskip : ∀ a n, R a n a)
    (htrans : ∀ a b c m n, R a m b → R b n c → R a (m + n) c)
    (hfield : ∀ field ∈ desc.fields, ∀ wireType dest k, 0 < k →
      Uses (field.decodeField wireType dest) fun dest' n => R dest (k + n) dest') (dest : σ) :
    Uses (pbDecodeInner desc true dest) fun dest' n => R dest n dest' := by
  have hturn (dest : σ) : Uses (plainRead desc dest) fun dest' n => R dest n dest' := by
    refine uses_pbDecodeVarint32.bind fun temp k hk => .ite (fun _ => uses_returnError _) fun _ => ?_
    split
    next field hfind => exact hfield field (List.mem_of_find?_eq_some hfind) _ _ k hk.1
    · exact (reads_pbSkipField _).uses.bind fun _ n _ => uses_pure (hskip _ _)
  intro bs t dest' s hok
  induction hn : bs.length using Nat.strong_induction_on generalizing bs dest with
  | _ n ih =>
    cases bs with
    | nil =>
      rw [pbDecodeInner_nil] at hok
      cases hok
      exact ⟨[], [], rfl, rfl, hskip _ _⟩
    | cons c bs =>
      rcases reads_plainRead hr dest c bs with ⟨msg, he⟩ | ⟨dest₁, used, rest, rfl, hread⟩
      · rw [pbDecodeInner_of_error ho (he t)] at hok
        cases hok
      · rw [pbDecodeInner_of_ok hr ho (by simp) (hread rest t)] at hok
        obtain ⟨used₁, rest₁, hsplit, hs, hR⟩ := hturn dest _ t _ _ (hread rest t)
        have hlen := congrArg PbIstream.bytesLeft hs
        simp only [PbIstream.over] at hlen
        have hle := congrArg List.length hsplit
        simp only [List.length_cons, List.length_append] at hle hn
        obtain ⟨used₂, rest₂, rfl, rfl, hR₂⟩ := ih rest.length (by omega) dest₁ rest hok rfl
        refine ⟨c :: (used ++ used₂), rest₂, by simp, rfl, ?_⟩
        have hsum := htrans _ _ _ _ _ hR hR₂
        simp only [List.length_append] at hle hlen
        rwa [show used₁.length + used₂.length = (c :: (used ++ used₂)).length by
          simp only [List.length_cons, List.length_append]
          omega] at hsum

end Messages

end SmakChess.Pb
