import Mathlib.Algebra.Order.Ring.Rat
import Mathlib.Data.Int.ConditionallyCompleteOrder
import Mathlib.Data.Nat.Cast.Order.Ring
import Mathlib.Order.ConditionallyCompleteLattice.Basic
import Mathlib.Order.Monotone.Odd
import Mathlib.Tactic.Ring
import Tilework.Proofs.Choices

/-!
# Values in the order of numbers

A finite value stands for a significand that is scaled by a power of two. Each magnitude is greater
than the one before it by one unit in the last place, so that the places of values are ordered as
the numbers at them.
-/

namespace Tilework

namespace Binary64

/-- The number at a place of the order: a significand with the sign of the place, scaled by a power
of two. -/
def numberAt (place : ℤ) : ℚ :=
  place.sign * (parts place.natAbs).1 * 2 ^ (parts place.natAbs).2

/-- The number that a finite value stands for. The sign of zero does not count. -/
def toRat (v : Binary64) : ℚ := numberAt v.key

theorem numberAt_neg (place : ℤ) : numberAt (-place) = -numberAt place := by
  rw [numberAt, numberAt, Int.sign_neg, Int.natAbs_neg, Int.cast_neg, neg_mul, neg_mul]

theorem numberAt_natCast (m : ℕ) : numberAt m = (parts m).1 * 2 ^ (parts m).2 := by
  rw [numberAt, Int.natAbs_natCast]
  cases m with
  | zero => simp [parts, leadingBit]
  | succ m => simp

theorem parts_succ (m : ℕ) :
    parts (m + 1) = ((parts m).1 + 1, (parts m).2) ∨
      (parts m).1 + 1 = 2 * leadingBit ∧ parts (m + 1) = (leadingBit, (parts m).2 + 1) := by
  rcases Nat.lt_trichotomy (m + 1) leadingBit with hlt | heq | hgt
  · left
    rw [parts, if_pos hlt, parts, if_pos (by omega)]
  · -- The first significand of 53 bits still has the least exponent.
    left
    rw [parts, if_neg heq.not_lt, parts, if_pos (by omega), heq]
    rfl
  · rw [parts, if_neg hgt.not_gt, parts, if_neg (by omega)]
    simp only [leadingBit, Prod.mk.injEq]
    omega

theorem numberAt_succ (m : ℕ) : numberAt (m + 1 : ℕ) = numberAt m + 2 ^ (parts m).2 := by
  rw [numberAt_natCast, numberAt_natCast, ← add_one_mul, ← Nat.cast_succ]
  rcases parts_succ m with h | ⟨hcarry, h⟩
  · rw [h]
  · rw [h, Nat.succ_eq_add_one, hcarry, zpow_add_one₀ two_ne_zero, Nat.cast_mul, Nat.cast_two]
    ring

theorem strictMono_numberAt : StrictMono numberAt := by
  have hnat : StrictMono fun m : ℕ => numberAt m := strictMono_nat_of_lt_succ fun m => by
    rw [numberAt_succ]
    exact lt_add_of_pos_right _ (zpow_pos two_pos _)
  refine strictMono_of_odd_strictMonoOn_nonneg numberAt_neg ?_
  intro a ha b hb hab
  lift a to ℕ using ha
  lift b to ℕ using hb
  exact hnat (Int.ofNat_lt.mp hab)

variable {a b : Binary64}

theorem lt_iff_toRat_lt (ha : a.isFinite = true) (hb : b.isFinite = true) :
    a < b ↔ a.toRat < b.toRat := by
  rw [lt_iff, isNaN_of_isFinite ha, isNaN_of_isFinite hb, toRat, toRat,
    strictMono_numberAt.lt_iff_lt]
  simp

theorem toRat_sup (ha : a.isFinite = true) (hb : b.isFinite = true) :
    (a.sup b).toRat = max a.toRat b.toRat := by
  rw [toRat, key_sup ha hb]
  exact strictMono_numberAt.monotone.map_max

theorem toRat_inf (ha : a.isFinite = true) (hb : b.isFinite = true) :
    (a.inf b).toRat = min a.toRat b.toRat := by
  rw [toRat, key_inf ha hb]
  exact strictMono_numberAt.monotone.map_min

end Binary64

end Tilework
