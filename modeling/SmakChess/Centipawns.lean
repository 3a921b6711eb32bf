import SmakChess.Engine
import SmakChess.Rounding

/-! The number `extractEvalFromRegex` makes of centipawns. -/

namespace SmakChess

open Rounding

/-- The numbers here are far from the bounds on the exponent of a `float`. -/
def float (q : ℚ) : ℚ := toNearest 24 q

/-- The integer is converted to a `float` and divided by `100.0f`. A `double`
holds every `float`. -/
def Score.pawns : Score → Option ℚ
  | .centipawns x => some (float (float x / 100))
  | .mate _ => none

/-- How far apart the integers near `n` are that are `float`s. -/
def floatGap (n : ℕ) : ℕ := 2 ^ (Nat.log 2 n - 23)

/-- The pawns are quarters with 24 binary digits, and the conversion to `float`
moves the centipawns by less than half a step of the pawns. -/
def Quarters (n : ℕ) : Prop :=
  25 ∣ n ∧ floatGap (n / 25) ∣ n / 25 ∧
    min (n % floatGap n) (floatGap n - n % floatGap n) * 2 ^ 24 < 25 * 2 ^ Nat.log 2 (n / 25)

instance (n : ℕ) : Decidable (Quarters n) := by
  unfold Quarters
  infer_instance

section Naturals

variable {n : ℕ}

theorem floatGap_of_lt (h : n < 2 ^ 24) : floatGap n = 1 := by
  have hlog : Nat.log 2 n < 24 := Nat.log_lt_of_lt_pow' (by decide) h
  rw [floatGap, show Nat.log 2 n - 23 = 0 by omega, pow_zero]

theorem hasDigits_of_lt (h : n < 2 ^ 24) : HasDigits 24 n :=
  ⟨n, 0, by rw [Nat.abs_cast]; exact_mod_cast h, by simp⟩

theorem ulp_natCast (h : 2 ^ 24 ≤ n) : ulp 24 (n : ℚ) = floatGap n := by
  have hlog : 24 ≤ Nat.log 2 n := (Nat.le_log_iff_pow_le one_lt_two (by omega)).mpr h
  rw [ulp, Nat.abs_cast, Int.log_natCast, floatGap]
  push_cast
  rw [← zpow_natCast]
  congr 1
  omega

/-- The conversion goes to the nearest multiple of the gap. -/
theorem abs_sub_float (n : ℕ) :
    |(n : ℚ) - float n| = (min (n % floatGap n) (floatGap n - n % floatGap n) : ℕ) := by
  rcases lt_or_ge n (2 ^ 24) with h | h
  · rw [float, toNearest_of_hasDigits (hasDigits_of_lt h), floatGap_of_lt h]
    simp [Nat.mod_one]
  · have hgap : (floatGap n : ℚ) ≠ 0 := by simp [floatGap]
    rw [float, abs_sub_toNearest, ulp_natCast h, abs_sub_nearestEven, abs_sub_round_div_natCast_eq,
      div_mul_cancel₀ _ hgap]

theorem hasDigits_iff_floatGap_dvd (n : ℕ) : HasDigits 24 (n : ℚ) ↔ floatGap n ∣ n := by
  rcases lt_or_ge n (2 ^ 24) with h | h
  · rw [floatGap_of_lt h]
    exact iff_of_true (hasDigits_of_lt h) (one_dvd n)
  · constructor
    · intro hd
      obtain ⟨i, hi⟩ := hd.exists_mul_ulp
      rw [ulp_natCast h] at hi
      have hi : (n : ℤ) = i * floatGap n := by exact_mod_cast hi
      exact Int.natCast_dvd_natCast.mp ⟨i, by rw [hi, mul_comm]⟩
    · rintro ⟨i, hi⟩
      have hlt : n < 2 ^ 24 * floatGap n := by
        have hu := lt_pow_mul_ulp 24 (n : ℚ)
        rw [Nat.abs_cast, ulp_natCast h] at hu
        exact_mod_cast hu
      have hi' : i < 2 ^ 24 := by
        by_contra hge
        have := Nat.mul_le_mul_left (floatGap n) (not_lt.mp hge)
        rw [← hi, mul_comm] at this
        omega
      refine ⟨i, (Nat.log 2 n - 23 : ℕ), by rw [Nat.abs_cast]; exact_mod_cast hi', ?_⟩
      nth_rewrite 1 [hi]
      rw [floatGap]
      push_cast
      rw [mul_comm, zpow_natCast]

theorem quarter_eq (k : ℕ) : ((25 * k : ℕ) : ℚ) / 100 = k * 2 ^ (-2 : ℤ) := by
  push_cast
  rw [zpow_neg]
  ring

theorem hasDigits_div_iff (n : ℕ) :
    HasDigits 24 ((n : ℚ) / 100) ↔ 25 ∣ n ∧ floatGap (n / 25) ∣ n / 25 := by
  constructor
  · intro h
    have hdvd : 25 ∣ n := by
      obtain ⟨m, e, -, hm⟩ := h
      have hn : ((n : ℤ) : ℚ) * 2 ^ (0 : ℤ) = ((100 * m : ℤ) : ℚ) * 2 ^ e := by
        rw [div_eq_iff (by norm_num)] at hm
        push_cast
        rw [hm]
        ring
      obtain ⟨i, j, hij⟩ := exists_mul_pow_eq hn
      have hcop : IsCoprime (25 : ℤ) (2 ^ i) :=
        (Int.isCoprime_two_right.mpr (by decide)).pow_right
      have h25 : (25 : ℤ) ∣ n :=
        hcop.dvd_of_dvd_mul_right ⟨4 * m * 2 ^ j, by rw [hij]; ring⟩
      exact_mod_cast h25
    obtain ⟨k, rfl⟩ := hdvd
    rw [quarter_eq, hasDigits_mul_zpow, hasDigits_iff_floatGap_dvd] at h
    rw [Nat.mul_div_cancel_left k (by decide)]
    exact ⟨dvd_mul_right 25 k, h⟩
  · rintro ⟨⟨k, rfl⟩, h⟩
    rw [Nat.mul_div_cancel_left k (by decide)] at h
    rw [quarter_eq, hasDigits_mul_zpow, hasDigits_iff_floatGap_dvd]
    exact h

theorem float_neg (q : ℚ) : float (-q) = -float q := toNearest_neg 24 q

theorem quarters_zero : Quarters 0 := by decide

/-- The condition on the step is that on the difference of the integers. -/
theorem moved_lt_iff {k : ℕ} (hk : k ≠ 0) (d : ℕ) :
    d * 2 ^ 24 < 25 * 2 ^ Nat.log 2 k ↔
      (d : ℚ) < (100 : ℤ) / 2 * ulp 24 (((25 * k : ℕ) : ℚ) / 100) := by
  have hk' : (k : ℚ) ≠ 0 := Nat.cast_ne_zero.mpr hk
  have hulp : ulp 24 (((25 * k : ℕ) : ℚ) / 100) = 2 ^ Nat.log 2 k / 2 ^ 25 := by
    rw [quarter_eq, ulp_mul_zpow hk', ulp, Nat.abs_cast, Int.log_natCast, ← zpow_add₀ two_ne_zero,
      ← zpow_natCast, ← zpow_natCast, ← zpow_sub₀ two_ne_zero]
    congr 1
    omega
  have hstep (L : ℚ) : (100 : ℤ) / 2 * (L / 2 ^ 25) = 25 * L / 2 ^ 24 := by
    push_cast
    ring
  rw [hulp, hstep, lt_div_iff₀ (by positivity)]
  exact_mod_cast Iff.rfl

theorem float_div_iff (n : ℕ) : float (float n / 100) = n / 100 ↔ Quarters n := by
  rcases n.eq_zero_or_pos with rfl | hn
  · refine iff_of_true ?_ quarters_zero
    have hzero : float 0 = 0 := toNearest_of_hasDigits ⟨0, 0, by simp, by simp⟩
    simp [hzero]
  have hiff (hr : HasDigits 24 ((n : ℚ) / (100 : ℤ))) :=
    toNearest_div_eq_iff (by decide) (Nat.cast_pos.mpr hn) (by decide)
      ⟨100, 0, by decide, by simp⟩ hr
  rw [Quarters, ← and_assoc, ← hasDigits_div_iff]
  constructor
  · intro h
    have hr : HasDigits 24 ((n : ℚ) / 100) := h ▸ hasDigits_toNearest (by decide) _
    obtain ⟨⟨k, rfl⟩, -⟩ := (hasDigits_div_iff n).mp hr
    refine ⟨hr, ?_⟩
    rw [Nat.mul_div_cancel_left k (by decide), moved_lt_iff (by omega), ← abs_sub_float]
    exact (hiff hr).mp h
  · rintro ⟨hr, h⟩
    obtain ⟨⟨k, rfl⟩, -⟩ := (hasDigits_div_iff n).mp hr
    rw [Nat.mul_div_cancel_left k (by decide), moved_lt_iff (by omega), ← abs_sub_float] at h
    exact (hiff hr).mpr h

end Naturals

/-- The value is the exact one. -/
theorem pawns_iff (x : ℤ) :
    (Score.centipawns x).pawns = some ((x : ℚ) / 100) ↔ Quarters x.natAbs := by
  rw [Score.pawns, Option.some_inj, ← float_div_iff]
  rcases Int.natAbs_eq x with hx | hx
  · nth_rewrite 1 2 [hx]
    rfl
  · have hneg : (x : ℚ) = -(x.natAbs : ℚ) := by
      rw [← Int.cast_natCast, ← Int.cast_neg, ← hx]
    rw [hneg, float_neg, neg_div, float_neg, neg_div, neg_inj]

/-- The integers below `2 ^ 24` are `float`s. -/
theorem quarters_iff_dvd {n : ℕ} (h : n < 2 ^ 24) : Quarters n ↔ 25 ∣ n := by
  have hk : n / 25 < 2 ^ 24 := (Nat.div_le_self n 25).trans_lt h
  have hmoved : min (n % 1) (1 - n % 1) = 0 := by rw [Nat.mod_one, Nat.zero_min]
  rw [Quarters, floatGap_of_lt h, floatGap_of_lt hk, hmoved, zero_mul]
  exact and_iff_left ⟨one_dvd _, by positivity⟩

end SmakChess
