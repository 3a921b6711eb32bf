import Mathlib.Algebra.Order.Round
import Mathlib.Data.Int.Log
import Mathlib.Data.Rat.Floor
import Mathlib.RingTheory.Int.Basic
import Mathlib.Tactic.FieldSimp
import Mathlib.Tactic.LinearCombination
import Mathlib.Tactic.Linarith
import Mathlib.Tactic.Ring

/-! Rationals rounded to a number of binary digits: to the nearest, and in the
middle of two to the even one. There is no bound on the exponents. -/

namespace Rounding

/-- `round` goes up in the middle of two integers. -/
def nearestEven (q : ℚ) : ℤ :=
  if Int.fract q = 1 / 2 ∧ Even ⌊q⌋ then ⌊q⌋ else round q

/-- How far apart the numbers with `p` digits are at `q`. -/
def ulp (p : ℕ) (q : ℚ) : ℚ := 2 ^ (Int.log 2 |q| + 1 - p)

def toNearest (p : ℕ) (q : ℚ) : ℚ := nearestEven (q / ulp p q) * ulp p q

def HasDigits (p : ℕ) (q : ℚ) : Prop := ∃ m e : ℤ, |m| < 2 ^ p ∧ q = m * 2 ^ e

section Integers

variable {q : ℚ} {m n : ℤ}

theorem abs_sub_nearestEven (q : ℚ) : |q - nearestEven q| = |q - round q| := by
  rw [nearestEven]
  split_ifs with h
  · rw [abs_sub_round_eq_min, h.1, Int.self_sub_floor, Int.abs_fract, h.1]
    norm_num
  · rfl

theorem abs_sub_nearestEven_le (q : ℚ) (n : ℤ) : |q - nearestEven q| ≤ |q - n| := by
  rw [abs_sub_nearestEven]
  exact round_le q n

theorem eq_of_abs_sub_lt (hm : |q - m| ≤ 1 / 2) (hn : |q - n| < 1 / 2) : m = n := by
  have h : |((m - n : ℤ) : ℚ)| < 1 := by
    push_cast
    rw [abs_lt]
    rw [abs_le] at hm
    rw [abs_lt] at hn
    constructor <;> linarith
  have h : |m - n| < 1 := by exact_mod_cast h
  exact sub_eq_zero.mp (Int.abs_lt_one_iff.mp h)

theorem nearestEven_eq_of_lt (h : |q - n| < 1 / 2) : nearestEven q = n :=
  eq_of_abs_sub_lt ((abs_sub_nearestEven q).trans_le (abs_sub_round q)) h

@[simp]
theorem nearestEven_intCast (n : ℤ) : nearestEven n = n :=
  nearestEven_eq_of_lt (by simp)

/-- In the middle, `⌊q⌋` and `⌊q⌋ + 1` are as near, and one of them is even. -/
theorem even_nearestEven_of_tie (h : |q - nearestEven q| = 1 / 2) : Even (nearestEven q) := by
  have hfract : Int.fract q = 1 / 2 := by
    rw [abs_sub_nearestEven, abs_sub_round_eq_min] at h
    rcases min_choice (Int.fract q) (1 - Int.fract q) with hmin | hmin <;> rw [hmin] at h <;>
      linarith
  rw [nearestEven]
  split_ifs with heven
  · exact heven.2
  · have hodd : ¬ Even ⌊q⌋ := fun he => heven ⟨hfract, he⟩
    have hround : round q = ⌊q⌋ + 1 := by
      have hq := Int.floor_add_fract q
      rw [round_eq_iff, Set.mem_Ico]
      push_cast
      constructor <;> linarith
    rw [hround]
    exact Int.even_add_one.mpr hodd

theorem nearestEven_neg (q : ℚ) : nearestEven (-q) = -nearestEven q := by
  have hsub (n : ℤ) : |-q - (-n : ℤ)| = |q - n| := by
    rw [← abs_neg]
    push_cast
    ring_nf
  rcases ((abs_sub_nearestEven q).trans_le (abs_sub_round q)).lt_or_eq with h | h
  · exact nearestEven_eq_of_lt ((hsub _).trans_lt h)
  · have htie : |-q - nearestEven (-q)| = 1 / 2 := by
      refine le_antisymm ((abs_sub_nearestEven _).trans_le (abs_sub_round _)) ?_
      have hle := abs_sub_nearestEven_le q (-nearestEven (-q))
      rw [h, ← hsub, neg_neg] at hle
      exact hle
    have htie' : |q - (-nearestEven (-q) : ℤ)| = 1 / 2 := by
      rw [← hsub, neg_neg]
      exact htie
    obtain ⟨i, hi⟩ := even_nearestEven_of_tie h
    obtain ⟨j, hj⟩ := even_nearestEven_of_tie htie
    have hdist : |((-nearestEven (-q) - nearestEven q : ℤ) : ℚ)| ≤ 1 := by
      have := abs_sub_le (((-nearestEven (-q) : ℤ)) : ℚ) q (nearestEven q)
      rw [abs_sub_comm _ q, htie', h] at this
      push_cast at this ⊢
      linarith
    have hdist : |-nearestEven (-q) - nearestEven q| ≤ 1 := by exact_mod_cast hdist
    rw [abs_le] at hdist
    omega

end Integers

section Digits

variable {p : ℕ} {q r : ℚ}

theorem ulp_pos (p : ℕ) (q : ℚ) : 0 < ulp p q := zpow_pos two_pos _

theorem ulp_neg (p : ℕ) (q : ℚ) : ulp p (-q) = ulp p q := by rw [ulp, abs_neg, ulp]

theorem toNearest_neg (p : ℕ) (q : ℚ) : toNearest p (-q) = -toNearest p q := by
  rw [toNearest, ulp_neg, neg_div, nearestEven_neg, toNearest]
  push_cast
  ring

theorem pow_mul_ulp (p : ℕ) (q : ℚ) : 2 ^ p * ulp p q = 2 ^ (Int.log 2 |q| + 1) := by
  rw [ulp, ← zpow_natCast, ← zpow_add₀ two_ne_zero]
  congr 1
  omega

theorem lt_pow_mul_ulp (p : ℕ) (q : ℚ) : |q| < 2 ^ p * ulp p q := by
  rw [pow_mul_ulp]
  exact Int.lt_zpow_succ_log_self one_lt_two _

theorem pow_mul_ulp_le (p : ℕ) (hq : q ≠ 0) : 2 ^ p * ulp p q ≤ 2 * |q| := by
  rw [pow_mul_ulp, zpow_add_one₀ two_ne_zero, mul_comm]
  exact mul_le_mul_of_nonneg_left (Int.zpow_log_le_self one_lt_two (abs_pos.mpr hq)) two_pos.le

/-- The numbers between two powers of two have one distance. -/
theorem ulp_eq_of_between (hlo : 2 ^ p * ulp p r ≤ 2 * q) (hhi : q < 2 ^ p * ulp p r) :
    ulp p q = ulp p r := by
  have hpos : 0 < q := by
    have := mul_pos (pow_pos (zero_lt_two' ℚ) p) (ulp_pos p r)
    linarith
  rw [pow_mul_ulp] at hlo hhi
  rw [zpow_add_one₀ two_ne_zero, mul_comm, mul_le_mul_iff_right₀ two_pos] at hlo
  have hle : Int.log 2 |r| ≤ Int.log 2 q := (Int.zpow_le_iff_le_log one_lt_two hpos).mp hlo
  have hlt : Int.log 2 q < Int.log 2 |r| + 1 := (Int.lt_zpow_iff_log_lt one_lt_two hpos).mp hhi
  rw [ulp, ulp, abs_of_pos hpos, show Int.log 2 q = Int.log 2 |r| by omega]

theorem abs_sub_toNearest (p : ℕ) (q : ℚ) :
    |q - toNearest p q| = |q / ulp p q - nearestEven (q / ulp p q)| * ulp p q := by
  have hu := ulp_pos p q
  have hsub : q - toNearest p q = (q / ulp p q - nearestEven (q / ulp p q)) * ulp p q := by
    rw [sub_mul, div_mul_cancel₀ q hu.ne', toNearest]
  rw [hsub, abs_mul, abs_of_pos hu]

theorem abs_sub_toNearest_le (p : ℕ) (q : ℚ) : |q - toNearest p q| ≤ ulp p q / 2 := by
  rw [abs_sub_toNearest, abs_sub_nearestEven]
  have h := mul_le_mul_of_nonneg_right (abs_sub_round (q / ulp p q)) (ulp_pos p q).le
  linarith

theorem abs_nearestEven_le (p : ℕ) (q : ℚ) : |nearestEven (q / ulp p q)| ≤ 2 ^ p := by
  have hu := ulp_pos p q
  have hle := abs_sub_nearestEven (q / ulp p q) |>.trans_le (abs_sub_round _)
  have hlt : |q / ulp p q| < 2 ^ p := by
    rw [abs_div, abs_of_pos hu, div_lt_iff₀ hu]
    exact lt_pow_mul_ulp p q
  have h := abs_sub_abs_le_abs_sub ((nearestEven (q / ulp p q) : ℚ)) (q / ulp p q)
  rw [abs_sub_comm _ (q / ulp p q)] at h
  have h : ((|nearestEven (q / ulp p q)| : ℤ) : ℚ) < ((2 ^ p + 1 : ℤ) : ℚ) := by
    push_cast
    linarith
  exact Int.lt_add_one_iff.mp (by exact_mod_cast h)

theorem hasDigits_of_le (hp : 0 < p) {m : ℤ} (e : ℤ) (h : |m| ≤ 2 ^ p) :
    HasDigits p (m * 2 ^ e) := by
  rcases h.lt_or_eq with h | h
  · exact ⟨m, e, h, rfl⟩
  · have hone : |m.sign| < 2 ^ p := by
      have hpow := one_lt_pow₀ (show (1 : ℤ) < 2 by decide) hp.ne'
      refine lt_of_le_of_lt ?_ hpow
      rcases Int.sign_trichotomy m with hs | hs | hs <;> simp [hs]
    refine ⟨m.sign, e + p, hone, ?_⟩
    rw [zpow_add₀ two_ne_zero, zpow_natCast]
    have hm : (m : ℚ) = m.sign * 2 ^ p := by
      have := Int.sign_mul_abs m
      rw [h] at this
      exact_mod_cast this.symm
    rw [hm]
    ring

theorem hasDigits_toNearest (hp : 0 < p) (q : ℚ) : HasDigits p (toNearest p q) :=
  hasDigits_of_le hp _ (abs_nearestEven_le p q)

/-- A number with `p` digits is a whole number of steps. -/
theorem HasDigits.exists_mul_ulp (h : HasDigits p q) : ∃ i : ℤ, q = i * ulp p q := by
  obtain ⟨m, e, hm, rfl⟩ := h
  by_cases hz : (m : ℚ) * 2 ^ e = 0
  · exact ⟨0, by rw [hz]; simp⟩
  · have hlog : Int.log 2 |(m : ℚ) * 2 ^ e| < p + e := by
      rw [← Int.lt_zpow_iff_log_lt one_lt_two (abs_pos.mpr hz), abs_mul,
        abs_of_pos (zpow_pos (zero_lt_two' ℚ) e)]
      push_cast
      rw [zpow_add₀ two_ne_zero, zpow_natCast]
      exact mul_lt_mul_of_pos_right (by exact_mod_cast hm) (zpow_pos two_pos e)
    obtain ⟨k, hk⟩ := Int.eq_ofNat_of_zero_le
      (show 0 ≤ e - (Int.log 2 |(m : ℚ) * 2 ^ e| + 1 - p) by omega)
    refine ⟨m * 2 ^ k, ?_⟩
    rw [ulp]
    push_cast
    rw [mul_assoc, ← zpow_natCast, ← zpow_add₀ two_ne_zero]
    congr 2
    omega

theorem toNearest_of_hasDigits (h : HasDigits p q) : toNearest p q = q := by
  obtain ⟨i, hi⟩ := h.exists_mul_ulp
  have hdiv : q / ulp p q = i := by rw [div_eq_iff (ulp_pos p q).ne', ← hi]
  rw [toNearest, hdiv, nearestEven_intCast, ← hi]

/-- Below a power of two the steps are smaller, so that `r` must not be one. -/
theorem toNearest_eq_of_lt (h : HasDigits p r) (hr : 2 ^ p * ulp p r < 2 * r)
    (hlt : |q - r| < ulp p r / 2) : toNearest p q = r := by
  obtain ⟨i, hi⟩ := h.exists_mul_ulp
  have hu := ulp_pos p r
  have hlo : (2 ^ p + 1) * ulp p r ≤ 2 * r := by
    have hr' : 2 ^ p * ulp p r < 2 * i * ulp p r := by rwa [mul_assoc, ← hi]
    have hr' : 2 ^ p < 2 * i := by exact_mod_cast lt_of_mul_lt_mul_right hr' hu.le
    have hr' : (2 ^ p + 1 : ℚ) ≤ 2 * i := by exact_mod_cast hr'
    have h := mul_le_mul_of_nonneg_right hr' hu.le
    rwa [mul_assoc 2, ← hi] at h
  have hhi : r ≤ (2 ^ p - 1) * ulp p r := by
    have hr' : i * ulp p r < 2 ^ p * ulp p r := by
      rw [← hi]
      exact (le_abs_self r).trans_lt (lt_pow_mul_ulp p r)
    have hi' : i < 2 ^ p := by exact_mod_cast lt_of_mul_lt_mul_right hr' hu.le
    have hi' : (i : ℚ) ≤ 2 ^ p - 1 := by
      rw [le_sub_iff_add_le]
      exact_mod_cast hi'
    have h := mul_le_mul_of_nonneg_right hi' hu.le
    rwa [← hi] at h
  rw [abs_lt] at hlt
  have hulp : ulp p q = ulp p r := ulp_eq_of_between (by linarith) (by linarith)
  have hnear : |q / ulp p r - i| < 1 / 2 := by
    have hq : q / ulp p r - i = (q - r) / ulp p r := by
      rw [sub_div, eq_div_of_mul_eq hu.ne' hi.symm]
    rw [hq, abs_div, abs_of_pos hu, div_lt_iff₀ hu, abs_lt]
    constructor <;> linarith
  rw [toNearest, hulp, nearestEven_eq_of_lt hnear, ← hi]

theorem ulp_le_ulp_toNearest (hp : 0 < p) (hq : q ≠ 0) : ulp p q ≤ ulp p (toNearest p q) := by
  have hu := ulp_pos p q
  obtain ⟨p, rfl⟩ : ∃ p', p = p' + 1 := ⟨p - 1, by omega⟩
  have hq' : (2 ^ p : ℤ) ≤ |q / ulp (p + 1) q| := by
    rw [abs_div, abs_of_pos hu, le_div_iff₀ hu]
    have h := pow_mul_ulp_le (p + 1) hq
    push_cast
    rw [pow_succ] at h
    linarith
  have hround : (2 ^ p : ℤ) ≤ |nearestEven (q / ulp (p + 1) q)| := by
    have hle : |q / ulp (p + 1) q - nearestEven (q / ulp (p + 1) q)| ≤ 1 / 2 :=
      (abs_sub_nearestEven _).trans_le (abs_sub_round _)
    have h := (abs_sub_abs_le_abs_sub (q / ulp (p + 1) q) _).trans hle
    have h : ((2 ^ p - 1 : ℤ) : ℚ) < ((|nearestEven (q / ulp (p + 1) q)| : ℤ) : ℚ) := by
      push_cast at hq' ⊢
      linarith
    have := Int.cast_lt.mp h
    omega
  have hr : 2 ^ p * ulp (p + 1) q ≤ |toNearest (p + 1) q| := by
    rw [toNearest, abs_mul, abs_of_pos hu]
    exact mul_le_mul_of_nonneg_right (by exact_mod_cast hround) hu.le
  have hpos : 0 < |toNearest (p + 1) q| := lt_of_lt_of_le (by positivity) hr
  have hr : (2 : ℚ) ^ (Int.log 2 |q|) ≤ |toNearest (p + 1) q| := by
    refine le_trans (le_of_eq ?_) hr
    have h := pow_mul_ulp (p + 1) q
    rw [zpow_add_one₀ two_ne_zero, pow_succ] at h
    linarith
  have hlog := (Int.zpow_le_iff_le_log one_lt_two hpos).mp hr
  rw [ulp, ulp]
  exact zpow_le_zpow_right₀ one_le_two (by omega)

theorem log_mul_zpow (hq : q ≠ 0) (e : ℤ) : Int.log 2 |q * 2 ^ e| = Int.log 2 |q| + e := by
  have htwo : (0 : ℚ) < 2 ^ e := zpow_pos two_pos e
  have hpos := abs_pos.mpr hq
  have habs : |q * 2 ^ e| = |q| * 2 ^ e := by rw [abs_mul, abs_of_pos htwo]
  have hpos' : 0 < |q| * 2 ^ e := mul_pos hpos htwo
  rw [habs]
  refine le_antisymm (Int.lt_add_one_iff.mp ?_) ?_
  · rw [← Int.lt_zpow_iff_log_lt one_lt_two hpos', add_right_comm]
    push_cast
    rw [zpow_add₀ two_ne_zero (Int.log 2 |q| + 1)]
    exact mul_lt_mul_of_pos_right (Int.lt_zpow_succ_log_self one_lt_two _) htwo
  · rw [← Int.zpow_le_iff_le_log one_lt_two hpos']
    push_cast
    rw [zpow_add₀ two_ne_zero]
    exact mul_le_mul_of_nonneg_right (Int.zpow_log_le_self one_lt_two hpos) htwo.le

theorem ulp_mul_zpow (hq : q ≠ 0) (e : ℤ) : ulp p (q * 2 ^ e) = ulp p q * 2 ^ e := by
  rw [ulp, ulp, log_mul_zpow hq, ← zpow_add₀ two_ne_zero]
  congr 1
  omega

theorem hasDigits_mul_zpow (e : ℤ) : HasDigits p (q * 2 ^ e) ↔ HasDigits p q := by
  have hmul {q : ℚ} (e : ℤ) (h : HasDigits p q) : HasDigits p (q * 2 ^ e) := by
    obtain ⟨m, f, hm, rfl⟩ := h
    exact ⟨m, f + e, hm, by rw [zpow_add₀ two_ne_zero, mul_assoc]⟩
  refine ⟨fun h => ?_, hmul e⟩
  have h := hmul (-e) h
  rwa [mul_assoc, ← zpow_add₀ two_ne_zero, add_neg_cancel, zpow_zero, mul_one] at h

end Digits

section Quotients

variable {p : ℕ} {a q : ℚ} {m b d : ℤ}

theorem exists_mul_pow_eq {e f : ℤ} (h : (m : ℚ) * 2 ^ e = b * 2 ^ f) :
    ∃ k l : ℕ, m * 2 ^ k = b * 2 ^ l := by
  have hnat (g : ℤ) (hg : min e f ≤ g) :
      (2 : ℚ) ^ g = 2 ^ (g - min e f).toNat * 2 ^ min e f := by
    rw [← zpow_natCast, ← zpow_add₀ two_ne_zero]
    congr 1
    omega
  rw [hnat e (min_le_left e f), hnat f (min_le_right e f), ← mul_assoc, ← mul_assoc] at h
  have hpow : (2 : ℚ) ^ min e f ≠ 0 := (zpow_pos two_pos _).ne'
  exact ⟨_, _, by exact_mod_cast mul_right_cancel₀ hpow h⟩

/-- No odd number with more digits divides a number with `p`. -/
theorem HasDigits.eq_zero_of_odd (ha : HasDigits p a) (hodd : Odd d) (hd : 2 ^ p ≤ |d|) (e : ℤ)
    (h : a = ((d * b : ℤ) : ℚ) * 2 ^ e) : a = 0 := by
  obtain ⟨m, f, hm, rfl⟩ := ha
  obtain ⟨k, l, hkl⟩ := exists_mul_pow_eq h
  have hcop : IsCoprime d (2 ^ k) := (Int.isCoprime_two_right.mpr hodd).pow_right
  have hdvd : |d| ∣ m :=
    (abs_dvd d m).mpr (hcop.dvd_of_dvd_mul_right ⟨b * 2 ^ l, by rw [hkl, mul_assoc]⟩)
  have hzero : m = 0 := Int.eq_zero_of_abs_lt_dvd hdvd (hm.trans_le hd)
  rw [hzero]
  simp

/-- A quotient of such a number never lies in the middle of two. -/
theorem HasDigits.abs_sub_toNearest_lt (ha : HasDigits p a) (hb : b ≠ 0) (h : a = q * b) :
    |q - toNearest p q| < ulp p q / 2 := by
  have hu := ulp_pos p q
  by_cases hq : q = 0
  · rw [hq, toNearest, zero_div]
    have hzero : nearestEven 0 = 0 := nearestEven_intCast 0
    rw [hzero]
    simpa using ulp_pos p 0
  refine (abs_sub_toNearest_le p q).lt_of_ne fun htie => ?_
  rw [abs_sub_toNearest] at htie
  have htie : |q / ulp p q - nearestEven (q / ulp p q)| = 1 / 2 := by
    rw [div_eq_mul_one_div (ulp p q), mul_comm] at htie
    exact mul_left_cancel₀ hu.ne' htie
  obtain ⟨d, hodd, hd⟩ : ∃ d : ℤ, Odd d ∧ q / ulp p q = d / 2 := by
    rcases (abs_eq (by norm_num)).mp htie with h | h
    · exact ⟨2 * nearestEven (q / ulp p q) + 1, odd_two_mul_add_one _, by push_cast; linarith⟩
    · refine ⟨2 * nearestEven (q / ulp p q) - 1, ?_, by push_cast; linarith⟩
      exact (even_two_mul _).sub_odd odd_one
  have hbig : 2 ^ p ≤ |d| := by
    have hle : (2 : ℚ) ^ p ≤ 2 * |q / ulp p q| := by
      rw [abs_div, abs_of_pos hu, ← mul_div_assoc, le_div_iff₀ hu]
      exact pow_mul_ulp_le p hq
    rw [hd, abs_div, abs_two, mul_div_cancel₀ _ two_ne_zero] at hle
    exact_mod_cast hle
  have hzero : a = 0 := by
    have hhalf : ulp p q * 2⁻¹ = 2 ^ (Int.log 2 |q| + 1 - p - 1) := by
      rw [zpow_sub_one₀ two_ne_zero, ulp]
    have ha' : a = ((d * b : ℤ) : ℚ) * (ulp p q * 2⁻¹) := by
      rw [h]
      rw [div_eq_iff hu.ne'] at hd
      push_cast
      linear_combination (b : ℚ) * hd
    rw [hhalf] at ha'
    exact ha.eq_zero_of_odd hodd hbig _ ha'
  have hqb : q * b ≠ 0 := mul_ne_zero hq (Int.cast_ne_zero.mpr hb)
  exact hqb (h.symm.trans hzero)

/-- A number is rounded, divided by `c` and rounded again. -/
theorem toNearest_div_eq_iff (hp : 0 < p) (ha : 0 < a) (hb : 0 < b) (hdigits : HasDigits p b)
    (hr : HasDigits p (a / b)) :
    toNearest p (toNearest p a / b) = a / b ↔ |a - toNearest p a| < b / 2 * ulp p (a / b) := by
  have hb' : (0 : ℚ) < b := Int.cast_pos.mpr hb
  have hpos : 0 < a / b := div_pos ha hb'
  have hdist : |toNearest p a / b - a / b| = |a - toNearest p a| / b := by
    rw [← sub_div, abs_div, abs_of_pos hb', abs_sub_comm]
  have hiff : |a - toNearest p a| < b / 2 * ulp p (a / b) ↔
      |toNearest p a / b - a / b| < ulp p (a / b) / 2 := by
    rw [hdist, div_lt_iff₀ hb']
    ring_nf
  rw [hiff]
  constructor
  · intro h
    have hne : toNearest p a / b ≠ 0 := by
      intro hzero
      rw [hzero, toNearest_of_hasDigits ⟨0, 0, by simp, by simp⟩] at h
      exact hpos.ne h
    have hlt := (hasDigits_toNearest hp a).abs_sub_toNearest_lt hb.ne'
      (div_mul_cancel₀ (toNearest p a) hb'.ne').symm
    have hle := ulp_le_ulp_toNearest hp hne
    rw [h] at hlt hle
    linarith
  · intro h
    by_cases heq : toNearest p a / b = a / b
    · rw [heq]
      exact toNearest_of_hasDigits hr
    refine toNearest_eq_of_lt hr (lt_of_le_of_ne ?_ fun hpow => heq ?_) h
    · have hle := pow_mul_ulp_le p hpos.ne'
      rwa [abs_of_pos hpos] at hle
    · -- the quotient is a power of two, so that `a` has the digits of `b`
      have ha' : a = b * 2 ^ Int.log 2 |a / b| := by
        rw [pow_mul_ulp, zpow_add_one₀ two_ne_zero, mul_comm] at hpow
        rw [mul_left_cancel₀ two_ne_zero hpow, mul_div_cancel₀ a hb'.ne']
      have had : HasDigits p a := by
        rw [ha', hasDigits_mul_zpow]
        exact hdigits
      rw [toNearest_of_hasDigits had]

end Quotients

end Rounding
