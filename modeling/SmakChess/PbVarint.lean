import SmakChess.PbFields

/-! A varint of the wire format is read as its number, by each of the decoder's
three loops. -/

namespace SmakChess.Pb

open Protobuf

section Varint

variable {bitpos result b k m n : Nat} {bs rest t : List UInt8}

theorem and_80 : ∀ b < 256, (b &&& 0x80 = 0 ↔ b < 128) := by decide +kernel

theorem and_FE : ∀ b < 256, (b &&& 0xFE = 0 ↔ b ≤ 1) := by decide +kernel

theorem and_70 : ∀ b < 256, b % 128 < 16 → b &&& 0x70 = 0 := by decide +kernel

theorem and_0F (n : Nat) : n &&& 0x0F = n % 16 := Nat.and_two_pow_sub_one_eq_mod n 4

/-- The next group of a number. -/
theorem or_group (h : result < 2 ^ bitpos) (m : Nat) :
    result ||| m <<< bitpos = result + m * 2 ^ bitpos := by
  rw [Nat.shiftLeft_eq, Nat.or_comm, Nat.mul_comm, ← Nat.two_pow_add_eq_or_of_lt h, Nat.add_comm]

theorem takeVarint_cons {k : Nat} {b : UInt8} (h : takeVarint k (b :: bs) = some (m, rest)) :
    (b.toNat < 128 ∧ m = b.toNat ∧ rest = bs) ∨ ∃ j m', k = j + 1 ∧ 128 ≤ b.toNat ∧
      takeVarint j bs = some (m', rest) ∧ m = b.toNat % 128 + 128 * m' := by
  cases k with
  | zero =>
    simp only [takeVarint] at h
    split_ifs at h with hb
    obtain ⟨rfl, rfl⟩ := by simpa using h
    exact .inl ⟨hb, rfl, rfl⟩
  | succ k =>
    simp only [takeVarint] at h
    split_ifs at h with hb
    · obtain ⟨rfl, rfl⟩ := by simpa using h
      exact .inl ⟨hb, rfl, rfl⟩
    · obtain ⟨⟨m', r⟩, hm, heq⟩ := Option.map_eq_some_iff.mp h
      obtain ⟨rfl, rfl⟩ := by simpa using heq
      have hlt := b.toNat_lt
      exact .inr ⟨k, m', rfl, by omega, hm, by omega⟩

theorem more_of_le {b : UInt8} (hb : 128 ≤ b.toNat) : b.toNat &&& 0x80 ≠ 0 := fun h0 => by
  have hlt := (and_80 _ b.toNat_lt).mp h0
  omega

/-- The group of a byte that goes on, and the groups behind it. -/
theorem groups_eq (b m : Nat) :
    (b % 128 + 128 * m) * 2 ^ bitpos = b % 128 * 2 ^ bitpos + m * 2 ^ (bitpos + 7) := by
  rw [pow_add]
  ring

theorem group_lt (h : result < 2 ^ bitpos) (b : Nat) :
    result + b % 128 * 2 ^ bitpos < 2 ^ (bitpos + 7) := by
  have hmod : b % 128 * 2 ^ bitpos ≤ 127 * 2 ^ bitpos := Nat.mul_le_mul_right _ (by omega)
  rw [pow_add]
  omega

theorem varintLoop_ok (hk : 7 * k + bitpos = 63) (hr : result < 2 ^ bitpos)
    (h : takeVarint k bs = some (m, rest)) (hm : result + m * 2 ^ bitpos < 2 ^ 64) :
    varintLoop (k + 1) bitpos result (.over bs t) = .ok (result + m * 2 ^ bitpos, .over rest t) := by
  induction bs generalizing k bitpos result m with
  | nil => simp [takeVarint] at h
  | cons b bs ih =>
    rcases takeVarint_cons h with ⟨hb, rfl, rfl⟩ | ⟨j, m', rfl, hb, hm', rfl⟩
    · have hfits : ¬ (63 ≤ bitpos ∧ b.toNat &&& 0xFE ≠ 0) := by
        rintro ⟨hpos, hbits⟩
        obtain rfl : bitpos = 63 := by omega
        exact hbits ((and_FE _ b.toNat_lt).mpr (by omega))
      have hbyte : b.toNat % 128 = b.toNat := by omega
      rw [varintLoop, bind_of_ok (pbReadbyte_cons b), if_neg hfits]
      simp only [(and_80 _ b.toNat_lt).mpr hb, ne_eq, not_true_eq_false, if_false, and_7F, hbyte,
        or_group hr]
      rfl
    · have hfits : ¬ (63 ≤ bitpos ∧ b.toNat &&& 0xFE ≠ 0) := by omega
      rw [groups_eq, ← Nat.add_assoc] at hm ⊢
      rw [varintLoop, bind_of_ok (pbReadbyte_cons b), if_neg hfits, and_7F, or_group hr]
      simp only [more_of_le hb, ne_eq, not_false_eq_true, if_true]
      exact ih (by omega) (group_lt hr _) hm' hm

theorem pbDecodeVarint_ok (h : decodeVarint bs = some (n, rest)) :
    pbDecodeVarint (.over bs t) = .ok (n, .over rest t) := by
  obtain ⟨htake, hlt⟩ := Option.filter_eq_some_iff.mp h
  have hn : n < 2 ^ 64 := by simpa using hlt
  have hloop : varintLoop 10 0 0 (.over bs t) = .ok (0 + n * 2 ^ 0, .over rest t) :=
    varintLoop_ok rfl Nat.one_pos htake (by simpa using hn)
  simpa [pbDecodeVarint] using hloop

/-- The groups of a number of 32 bits, and zeros behind them. -/
theorem varint32Step_ok (hb : b < 256) (hpos : bitpos < 64) (hr : bitpos < 32 → result < 2 ^ bitpos)
    (hsum : result + b % 128 * 2 ^ bitpos < 2 ^ 32) :
    varint32Step bitpos result b = pure (result + b % 128 * 2 ^ bitpos) := by
  unfold varint32Step
  split
  next hbig =>
    have hpow : 2 ^ 32 ≤ 2 ^ bitpos := Nat.pow_le_pow_right (by decide) hbig
    have hzero : b % 128 = 0 := by
      by_contra hne
      have hmul : 1 * 2 ^ bitpos ≤ b % 128 * 2 ^ bitpos := Nat.mul_le_mul_right _ (by omega)
      omega
    simp [and_7F, hzero, Nat.not_le.mpr hpos]
  next hsmall =>
    split
    next h28 =>
      subst h28
      have h16 : b % 128 < 16 := by omega
      have hmod : b % 16 = b % 128 := by omega
      simp [and_70 b hb h16, and_0F, hmod, or_group (hr (by decide))]
    next h28 => rw [and_7F, or_group (hr (by omega))]

theorem varint32Loop_ok (hk : 7 * k + bitpos = 63) (hr : bitpos < 32 → result < 2 ^ bitpos)
    (h : takeVarint k bs = some (m, rest)) (hm : result + m * 2 ^ bitpos < 2 ^ 32) :
    varint32Loop (k + 2) bitpos result (.over bs t) = .ok (result + m * 2 ^ bitpos, .over rest t) := by
  induction bs generalizing k bitpos result m with
  | nil => simp [takeVarint] at h
  | cons b bs ih =>
    rcases takeVarint_cons h with ⟨hb, rfl, rfl⟩ | ⟨j, m', rfl, hb, hm', rfl⟩
    · have hbyte : b.toNat % 128 = b.toNat := by omega
      have hstep := varint32Step_ok b.toNat_lt (by omega) hr (hbyte.symm ▸ hm)
      rw [varint32Loop, bind_of_ok (pbReadbyte_cons b), hstep, pure_bind, hbyte]
      simp only [(and_80 _ b.toNat_lt).mpr hb, ne_eq, not_true_eq_false, if_false]
      rfl
    · rw [groups_eq, ← Nat.add_assoc] at hm ⊢
      have hstep := varint32Step_ok b.toNat_lt (by omega) hr (by omega)
      rw [varint32Loop, bind_of_ok (pbReadbyte_cons b), hstep, pure_bind, if_pos (more_of_le hb)]
      exact ih (by omega) (fun _ => group_lt (hr (by omega)) _) hm' hm

theorem pbDecodeVarint32_ok (h : decodeVarint bs = some (n, rest)) (hn : n < 2 ^ 32) :
    pbDecodeVarint32 (.over bs t) = .ok (n, .over rest t) := by
  obtain ⟨htake, -⟩ := Option.filter_eq_some_iff.mp h
  cases bs with
  | nil => cases htake
  | cons b bs =>
    rw [pbDecodeVarint32_eq, bind_of_ok (pbReadbyte_cons b), varint32Rest]
    rcases takeVarint_cons htake with ⟨hb, rfl, rfl⟩ | ⟨j, m, hj, hb, hm, rfl⟩
    · rw [if_pos ((and_80 _ b.toNat_lt).mpr hb)]
      rfl
    · obtain rfl : j = 8 := by omega
      have hloop : varint32Loop 10 7 (b.toNat % 128) (.over bs t) =
          .ok (b.toNat % 128 + m * 2 ^ 7, .over rest t) :=
        varint32Loop_ok rfl (fun _ => by omega) hm (by omega)
      rw [if_neg (more_of_le hb), and_7F, hloop]
      congr 2
      omega

theorem skipVarintLoop_ok (h : takeVarint k bs = some (m, rest)) {j : Nat} (hj : bs.length < j) :
    skipVarintLoop j (.over bs t) = .ok ((), .over rest t) := by
  induction bs generalizing k m j with
  | nil => simp [takeVarint] at h
  | cons b bs ih =>
    obtain ⟨j, rfl⟩ := Nat.exists_eq_succ_of_ne_zero (Nat.ne_zero_of_lt hj)
    have hread : pbRead 1 (.over (b :: bs) t) = .ok ([b], .over bs t) := pbRead_over [b] bs t
    rcases takeVarint_cons h with ⟨hb, rfl, rfl⟩ | ⟨i, m', rfl, hb, hm', rfl⟩
    · rw [skipVarintLoop, bind_of_ok hread, if_neg (by simpa using (and_80 _ b.toNat_lt).mpr hb)]
      rfl
    · rw [skipVarintLoop, bind_of_ok hread, if_pos (by simpa using more_of_le hb)]
      exact ih hm' (by simpa using hj)

theorem pbSkipVarint_ok (h : decodeVarint bs = some (n, rest)) :
    pbSkipVarint (.over bs t) = .ok ((), .over rest t) :=
  skipVarintLoop_ok (Option.filter_eq_some_iff.mp h).1 (Nat.lt_succ_self _)

end Varint

end SmakChess.Pb
