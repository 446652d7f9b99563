import Mathlib.Algebra.Order.Field.Power
import Mathlib.Algebra.Order.Field.Rat
import Mathlib.Tactic.NormNum
import Mathlib.Tactic.Positivity
import Tilework.Number.Decimal

/-!
# Numbers too great for a finite value

Rounding gives a finite value exactly for numbers below the midpoint between the greatest finite
value and the power of two above it. The midpoint itself goes up, since the significand of the
greatest value is odd.
-/

namespace Tilework

namespace Binary64

/-- The midpoint above the greatest finite value. -/
def overflow : ℚ := (2 ^ 54 - 1) * 2 ^ 970

theorem one_lt_overflow : 1 < overflow :=
  one_lt_mul_of_lt_of_le (by norm_num) (one_le_pow₀ one_le_two)

theorem two_zpow_eq_mul_unit (k : ℤ) : (2 : ℚ) ^ (970 + k) = 2 ^ k * 2 ^ 970 := by
  rw [add_comm, zpow_add₀ two_ne_zero]
  rfl

theorem two_zpow_le_overflow : (2 : ℚ) ^ (1023 : ℤ) ≤ overflow := by
  rw [overflow, show (1023 : ℤ) = 970 + 53 from rfl, two_zpow_eq_mul_unit]
  exact mul_le_mul_of_nonneg_right (by norm_num) (pow_nonneg two_pos.le 970)

theorem overflow_le : overflow ≤ 2 ^ (1024 : ℤ) := by
  rw [overflow, show (1024 : ℤ) = 970 + 54 from rfl, two_zpow_eq_mul_unit]
  exact mul_le_mul_of_nonneg_right (by norm_num) (pow_nonneg two_pos.le 970)

theorem zpow_eq_div (b : ℚ) (e : ℤ) : b ^ e = b ^ e.toNat / b ^ (-e).toNat := by
  rcases Int.le_total 0 e with h | h
  · obtain ⟨n, rfl⟩ := Int.eq_ofNat_of_zero_le h
    simp
  · obtain ⟨n, hn⟩ := Int.eq_ofNat_of_zero_le (Int.neg_nonneg_of_nonpos h)
    obtain rfl : e = -n := by omega
    simp

variable {num den n : ℕ}

theorem roundQuotient_bounds (num den : ℕ) :
    num / den ≤ roundQuotient num den ∧ roundQuotient num den ≤ num / den + 1 := by
  simp only [roundQuotient]
  split_ifs <;> omega

theorem roundQuotient_le (hden : 0 < den) (h : num ≤ n * den) : roundQuotient num den ≤ n := by
  have hdiv := Nat.div_add_mod num den
  have hmod := Nat.mod_lt num hden
  have hle : num / den ≤ n := Nat.div_le_of_le_mul (by rwa [Nat.mul_comm])
  rcases Nat.lt_or_eq_of_le hle with hlt | heq
  · exact (roundQuotient_bounds num den).2.trans hlt
  · rw [heq, Nat.mul_comm] at hdiv
    have hzero : num % den = 0 := by omega
    rw [roundQuotient, if_pos (by omega)]
    exact hle

theorem le_roundQuotient (hden : 0 < den) (h : n * den ≤ num) : n ≤ roundQuotient num den :=
  ((Nat.le_div_iff_mul_le hden).mpr h).trans (roundQuotient_bounds num den).1

/-- The midpoint below an even number is rounded to it. -/
theorem roundQuotient_lt_iff (hden : 0 < den) (heven : n % 2 = 0) :
    roundQuotient num den < n ↔ 2 * num + den < 2 * (n * den) := by
  have hdiv := Nat.div_add_mod num den
  have hmod := Nat.mod_lt num hden
  have hbounds := roundQuotient_bounds num den
  rcases Nat.lt_trichotomy (num / den + 1) n with hlt | heq | hgt
  · have hmul : (num / den + 2) * den ≤ n * den := Nat.mul_le_mul_right den hlt
    rw [Nat.add_mul, Nat.mul_comm (num / den)] at hmul
    omega
  · have hmul : n * den = den * (num / den) + den := by
      rw [← heq, Nat.add_mul, Nat.mul_comm (num / den), Nat.one_mul]
    have hodd : num / den % 2 = 1 := by omega
    simp only [roundQuotient]
    split_ifs <;> omega
  · have hmul : n * den ≤ (num / den) * den := Nat.mul_le_mul_right den (by omega)
    rw [Nat.mul_comm (num / den)] at hmul
    omega

theorem log2_bounds (h : 0 < n) : (2 : ℚ) ^ (n.log2 : ℤ) ≤ n ∧ (n : ℚ) < 2 ^ (n.log2 + 1 : ℤ) := by
  constructor
  · exact_mod_cast Nat.log2_self_le h.ne'
  · exact_mod_cast Nat.lt_log2_self

theorem mul_pow_le_iff (hden : 0 < den) (e : ℤ) :
    den * Nat.pow 2 e.toNat ≤ num * Nat.pow 2 (-e).toNat ↔ (2 : ℚ) ^ e ≤ num / den := by
  have hden' : (0 : ℚ) < den := Nat.cast_pos.mpr hden
  have hpow : (0 : ℚ) < 2 ^ (-e).toNat := by positivity
  rw [zpow_eq_div, div_le_div_iff₀ hpow hden', mul_comm (2 ^ e.toNat)]
  exact_mod_cast Iff.rfl

theorem binaryExponent_bounds (hnum : 0 < num) (hden : 0 < den) :
    (2 : ℚ) ^ binaryExponent num den ≤ num / den ∧
      (num / den : ℚ) < 2 ^ (binaryExponent num den + 1) := by
  have hden' : (0 : ℚ) < den := Nat.cast_pos.mpr hden
  obtain ⟨hnum_le, hnum_lt⟩ := log2_bounds hnum
  obtain ⟨hden_le, hden_lt⟩ := log2_bounds hden
  -- The difference of the logarithms is the exponent, or one more than it.
  have hlow : (2 : ℚ) ^ (num.log2 - den.log2 - 1 : ℤ) ≤ num / den := by
    rw [Int.sub_sub, zpow_sub₀ two_ne_zero]
    exact div_le_div₀ (Nat.cast_nonneg _) hnum_le hden' hden_lt.le
  have hhigh : (num / den : ℚ) < 2 ^ (num.log2 - den.log2 + 1 : ℤ) := by
    rw [sub_add_eq_add_sub, zpow_sub₀ two_ne_zero]
    exact div_lt_div₀ hnum_lt hden_le (by positivity) (by positivity)
  simp only [binaryExponent]
  split
  · next h => exact ⟨(mul_pow_le_iff hden _).mp h, hhigh⟩
  · next h =>
    rw [mul_pow_le_iff hden, not_le] at h
    exact ⟨hlow, by rwa [Int.sub_add_cancel]⟩

theorem scaled_quotient (num den : ℕ) (q : ℤ) :
    ((num * Nat.pow 2 (-q).toNat : ℕ) : ℚ) / (den * Nat.pow 2 q.toNat : ℕ) =
      num / den / 2 ^ q := by
  have hpow (k : ℕ) : ((Nat.pow 2 k : ℕ) : ℚ) = 2 ^ k := Nat.cast_pow 2 k
  rw [zpow_eq_div, div_div_eq_mul_div, div_mul_eq_mul_div, div_div, Nat.cast_mul, Nat.cast_mul,
    hpow, hpow]

theorem two_pow_mul_zpow (k : ℕ) (e : ℤ) : (2 : ℚ) ^ k * 2 ^ (e - k) = 2 ^ e := by
  rw [← zpow_natCast, ← zpow_add₀ two_ne_zero, add_sub_cancel]

/-- With the greatest exponent, a quotient is rounded up to the next one from the midpoint on. -/
theorem roundQuotient_lt_iff_lt_overflow {q : ℚ} (hden : 0 < den)
    (hscaled : (num / den : ℚ) = q / 2 ^ (1023 - 52 : ℤ)) :
    roundQuotient num den < 2 ^ 53 ↔ q < overflow := by
  have hden' : (0 : ℚ) < den := Nat.cast_pos.mpr hden
  have hunit : (0 : ℚ) < 2 ^ 970 := by positivity
  have hstep : (2 : ℚ) ^ (1023 - 52 : ℤ) = 2 * 2 ^ 970 := two_zpow_eq_mul_unit 1
  have hvalue : q = 2 * num / den * 2 ^ 970 := by
    rw [mul_div_assoc, hscaled, hstep, mul_div_assoc', mul_div_mul_left _ _ two_ne_zero,
      div_mul_cancel₀ _ hunit.ne']
  rw [roundQuotient_lt_iff hden (by decide), overflow, hvalue, mul_lt_mul_iff_left₀ hunit,
    div_lt_iff₀ hden', sub_one_mul, lt_sub_iff_add_lt, ← mul_assoc, ← pow_succ']
  exact_mod_cast Iff.rfl

theorem magnitude_lt_iff {e : ℤ} (hden : 0 < den) (he : -1022 ≤ e)
    (hlow : e = -1022 ∨ (2 : ℚ) ^ e ≤ num / den) (hhigh : (num / den : ℚ) < 2 ^ (e + 1)) :
    (e + 1022).toNat * leadingBit + roundQuotient (num * Nat.pow 2 (-(e - 52)).toNat)
        (den * Nat.pow 2 (e - 52).toNat) < infinityMagnitude ↔ (num / den : ℚ) < overflow := by
  have hscaled := scaled_quotient num den (e - 52)
  generalize num * Nat.pow 2 (-(e - 52)).toNat = n at hscaled ⊢
  have hdpos : 0 < den * Nat.pow 2 (e - 52).toNat := Nat.mul_pos hden (Nat.pow_pos (by decide))
  generalize den * Nat.pow 2 (e - 52).toNat = d at hscaled hdpos ⊢
  have hdpos' : (0 : ℚ) < d := Nat.cast_pos.mpr hdpos
  have hstep : (0 : ℚ) < 2 ^ (e - 52) := by positivity
  have hle : n ≤ 2 ^ 53 * d := by
    have hlt : (n / d : ℚ) < 2 ^ 53 := by
      rw [hscaled, div_lt_iff₀ hstep, show e - 52 = e + 1 - (53 : ℕ) by omega, two_pow_mul_zpow]
      exact hhigh
    rw [div_lt_iff₀ hdpos'] at hlt
    exact_mod_cast hlt.le
  have hround := roundQuotient_le hdpos hle
  simp only [infinityMagnitude, leadingBit]
  rcases Int.lt_trichotomy e 1023 with hlt | rfl | hgt
  · have hbelow : (num / den : ℚ) < overflow := calc
      (num / den : ℚ) < 2 ^ (e + 1) := hhigh
      _ ≤ 2 ^ (1023 : ℤ) := zpow_le_zpow_right₀ one_le_two (by omega)
      _ ≤ overflow := two_zpow_le_overflow
    simp only [hbelow, iff_true]
    omega
  · have hhalf := roundQuotient_lt_iff_lt_overflow hdpos hscaled
    rw [← hhalf]
    omega
  · have hge : 2 ^ 52 ≤ roundQuotient n d := by
      refine le_roundQuotient hdpos ?_
      have hpow : (2 ^ 52 : ℚ) ≤ n / d := by
        rw [hscaled, le_div_iff₀ hstep]
        exact (two_pow_mul_zpow 52 e).trans_le (hlow.resolve_left (by omega))
      rw [le_div_iff₀ hdpos'] at hpow
      exact_mod_cast hpow
    have habove : overflow ≤ num / den := calc
      overflow ≤ 2 ^ (1024 : ℤ) := overflow_le
      _ ≤ 2 ^ e := zpow_le_zpow_right₀ one_le_two (by omega)
      _ ≤ num / den := hlow.resolve_left (by omega)
    simp only [not_lt.mpr habove, iff_false]
    omega

/-- The magnitude nearest to a quotient is finite exactly when this is below the midpoint. -/
theorem nearest_lt_iff (hden : 0 < den) :
    nearest num den < infinityMagnitude ↔ (num / den : ℚ) < overflow := by
  rcases Nat.eq_zero_or_pos num with rfl | hnum
  · norm_num [nearest, infinityMagnitude, overflow]
  obtain ⟨hlow, hhigh⟩ := binaryExponent_bounds hnum hden
  simp only [nearest, if_neg hnum.ne', min_lt_iff, lt_irrefl, or_false]
  rcases le_total (binaryExponent num den) (-1022) with hle | hle
  · rw [max_eq_right hle]
    exact magnitude_lt_iff hden le_rfl (Or.inl rfl)
      (hhigh.trans_le (zpow_le_zpow_right₀ one_le_two (by omega)))
  · rw [max_eq_left hle]
    exact magnitude_lt_iff hden hle (Or.inr hlow) hhigh

end Binary64

namespace Decimal

def toRat (d : Decimal) : ℚ :=
  d.digits * 10 ^ d.exponent

/-- A decimal is rounded to a finite magnitude exactly when it is below the midpoint. -/
theorem magnitude_lt_iff (d : Decimal) :
    d.magnitude < Binary64.infinityMagnitude ↔ d.toRat < Binary64.overflow := by
  have hten : (0 : ℚ) < 10 ^ d.exponent := by positivity
  unfold magnitude
  split_ifs with hzero hgreat hsmall
  · simpa [toRat, hzero, Binary64.infinityMagnitude] using one_pos.trans Binary64.one_lt_overflow
  · have hdigits : (1 : ℚ) ≤ d.digits := Nat.one_le_cast.mpr (Nat.pos_of_ne_zero hzero)
    have hge : Binary64.overflow ≤ d.toRat := calc
      Binary64.overflow ≤ 2 ^ (1024 : ℤ) := Binary64.overflow_le
      _ ≤ 10 ^ (401 : ℤ) := by exact_mod_cast (by decide +kernel : 2 ^ 1024 ≤ 10 ^ 401)
      _ ≤ 10 ^ d.exponent := zpow_le_zpow_right₀ (by norm_num) (by omega)
      _ ≤ d.toRat := le_mul_of_one_le_left hten.le hdigits
    simpa using hge
  · have hlog : (d.digits : ℚ) ≤ 10 ^ (d.digits.log2 / 3 + 1) := by
      have hnat : d.digits ≤ 10 ^ (d.digits.log2 / 3 + 1) := calc
        d.digits ≤ 2 ^ (d.digits.log2 + 1) := Nat.lt_log2_self.le
        _ ≤ 2 ^ (3 * (d.digits.log2 / 3 + 1)) := Nat.pow_le_pow_right two_pos (by omega)
        _ = 8 ^ (d.digits.log2 / 3 + 1) := Nat.pow_mul 2 3 _
        _ ≤ 10 ^ (d.digits.log2 / 3 + 1) := Nat.pow_le_pow_left (by decide) _
      exact_mod_cast hnat
    have hlt : d.toRat < Binary64.overflow := calc
      d.toRat ≤ 10 ^ (d.digits.log2 / 3 + 1) * 10 ^ d.exponent :=
        mul_le_mul_of_nonneg_right hlog hten.le
      _ = 10 ^ ((d.digits.log2 / 3 + 1 : ℕ) + d.exponent) := by
        rw [zpow_add₀ (by norm_num), zpow_natCast]
      _ ≤ 10 ^ (0 : ℤ) := zpow_le_zpow_right₀ (by norm_num) (by omega)
      _ < Binary64.overflow := Binary64.one_lt_overflow
    simpa [Binary64.infinityMagnitude] using hlt
  · have hpow (k : ℕ) : ((Nat.pow 10 k : ℕ) : ℚ) = 10 ^ k := Nat.cast_pow 10 k
    have hden : 0 < Nat.pow 10 (-d.exponent).toNat := Nat.pow_pos (by decide)
    rw [Binary64.nearest_lt_iff hden, toRat, Binary64.zpow_eq_div, Nat.cast_mul, hpow, hpow,
      mul_div_assoc]

end Decimal

end Tilework
