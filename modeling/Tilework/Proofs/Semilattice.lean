import Mathlib.Data.Rat.Cast.Order
import Mathlib.Data.Real.Basic
import Mathlib.Tactic.NormNum
import Tilework.Proofs.Narrowing
import Tilework.Proofs.NumericOrder

/-!
# The semilattice of bounds

Bounds are ordered by their sides as numbers: the greater the low side and the less the high side,
the narrower the bound. In this order the intersection of two bounds is their infimum, and the free
bound is the greatest one. Two bounds with the same sides as numbers need not be equal, since a side
may be either zero; they allow the same numbers, and a bound is disjoint when it allows none.
-/

namespace Tilework

namespace Bound

open Binary64 (numberAt strictMono_numberAt)

/-- The sides as numbers. Low sides are ordered the other way round, so that a lesser pair of sides
is a narrower one, and having no sides is the greatest. -/
def sides : Bound → WithTop (ℚᵒᵈ × ℚ)
  | free => ⊤
  | interval low high => ↑(OrderDual.toDual low.toRat, high.toRat)

/-- A number lies in a bound that allows it. -/
instance : Membership ℝ Bound where
  mem b p := b.Allows (fun place => (numberAt place : ℝ)) p

variable {x y z : Bound}

theorem strictMono_cast_numberAt : StrictMono fun place : ℤ => (numberAt place : ℝ) :=
  Rat.cast_strictMono.comp strictMono_numberAt

theorem mem_interval {low high : Binary64} {p : ℝ} :
    p ∈ interval low high ↔ (low.toRat : ℝ) ≤ p ∧ p ≤ (high.toRat : ℝ) := Iff.rfl

theorem mem_inter (hx : x.IsFinite) (hy : y.IsFinite) (p : ℝ) :
    p ∈ x.inter y ↔ p ∈ x ∧ p ∈ y :=
  allows_inter strictMono_cast_numberAt.monotone hx hy p

theorem isDisjoint_iff_forall_notMem (hx : x.IsFinite) :
    x.isDisjoint = true ↔ ∀ p : ℝ, p ∉ x := by
  refine ⟨not_allows_of_isDisjoint strictMono_cast_numberAt, fun h => ?_⟩
  cases x with
  | free => exact absurd trivial (h 0)
  | interval low high =>
    rw [isDisjoint, decide_eq_true_iff, Binary64.lt_iff_toRat_lt hx.2 hx.1]
    -- Otherwise the low side would lie in the bound.
    by_contra hle
    exact h low.toRat (mem_interval.mpr ⟨le_rfl, Rat.cast_le.mpr (not_lt.mp hle)⟩)

theorem isDisjoint_inter (hx : x.IsFinite) (hy : y.IsFinite)
    (h : x.isDisjoint = true ∨ y.isDisjoint = true) : (x.inter y).isDisjoint = true := by
  rw [isDisjoint_iff_forall_notMem hx, isDisjoint_iff_forall_notMem hy] at h
  rw [isDisjoint_iff_forall_notMem (hx.inter hy)]
  intro p hp
  obtain ⟨hpx, hpy⟩ := (mem_inter hx hy p).mp hp
  exact h.elim (fun hnone => hnone p hpx) fun hnone => hnone p hpy

theorem sides_inter (hx : x.IsFinite) (hy : y.IsFinite) :
    (x.inter y).sides = x.sides ⊓ y.sides := by
  cases x with
  | free => rw [free_inter, sides, top_inf_eq]
  | interval low high =>
    cases y with
    | free => rw [inter_free, sides, sides, inf_top_eq]
    | interval low' high' =>
      rw [interval_inter_interval, sides, Binary64.toRat_sup hx.1 hy.1,
        Binary64.toRat_inf hx.2 hy.2]
      rfl

theorem mem_iff_of_sides_eq (h : x.sides = y.sides) (p : ℝ) : p ∈ x ↔ p ∈ y := by
  cases x with
  | free =>
    cases y with
    | free => rfl
    | interval low' high' => exact absurd h WithTop.top_ne_coe
  | interval low high =>
    cases y with
    | free => exact absurd h WithTop.coe_ne_top
    | interval low' high' =>
      obtain ⟨hlow, hhigh⟩ := Prod.mk.inj (WithTop.coe_injective h)
      rw [mem_interval, mem_interval, OrderDual.toDual.injective hlow, hhigh]

/-- Up to the signs of zeros, bounds with finite sides form a semilattice under intersecting, with
the free bound as its greatest element. What lies in an intersection lies in both of its parts, and
so an intersection with a disjoint bound is disjoint. -/
theorem inter_semilattice (hx : x.IsFinite) (hy : y.IsFinite) (hz : z.IsFinite) :
    (x.inter y).IsFinite ∧
    (x.inter y).sides = x.sides ⊓ y.sides ∧
    (x.inter y).sides = (y.inter x).sides ∧
    ((x.inter y).inter z).sides = (x.inter (y.inter z)).sides ∧
    (x.inter x).sides = x.sides ∧
    (free.inter x = x ∧ x.inter free = x) ∧
    (∀ p : ℝ, p ∈ x.inter y ↔ p ∈ x ∧ p ∈ y) ∧
    (x.isDisjoint = true ∨ y.isDisjoint = true → (x.inter y).isDisjoint = true) ∧
    (x.sides = y.sides → x.isDisjoint = y.isDisjoint ∧ ∀ p : ℝ, p ∈ x ↔ p ∈ y) := by
  refine ⟨hx.inter hy, sides_inter hx hy, ?_, ?_, ?_, ⟨free_inter x, inter_free x⟩,
    mem_inter hx hy, isDisjoint_inter hx hy, fun h => ⟨?_, mem_iff_of_sides_eq h⟩⟩
  · rw [sides_inter hx hy, sides_inter hy hx, inf_comm]
  · rw [sides_inter (hx.inter hy) hz, sides_inter hx hy, sides_inter hx (hy.inter hz),
      sides_inter hy hz, inf_assoc]
  · rw [sides_inter hx hx, inf_idem]
  · rw [Bool.eq_iff_iff, isDisjoint_iff_forall_notMem hx, isDisjoint_iff_forall_notMem hy]
    exact forall_congr' fun p => not_congr (mem_iff_of_sides_eq h p)

def upToFive : Bound := interval ⟨true, 0⟩ ⟨false, 0x4014000000000000⟩

def upToThree : Bound := interval ⟨false, 0⟩ ⟨false, 0x4008000000000000⟩

def nowhere : Bound := interval .greatest .least

/-- The two zeros keep the intersections of the first two bounds from being equal. -/
theorem inter_semilattice_zeros :
    upToFive.IsFinite ∧ upToThree.IsFinite ∧ nowhere.IsFinite ∧
      upToFive.inter upToThree ≠ upToThree.inter upToFive ∧
      (upToFive.inter upToThree).sides = (upToThree.inter upToFive).sides ∧
      ((upToFive.inter upToThree).inter nowhere).sides =
        (upToFive.inter (upToThree.inter nowhere)).sides ∧
      (3 : ℝ) ∈ upToFive.inter upToThree ∧ nowhere.isDisjoint = true ∧
      (nowhere.inter upToFive).isDisjoint = true := by
  have hfive : upToFive.IsFinite := ⟨rfl, rfl⟩
  have hthree : upToThree.IsFinite := ⟨rfl, rfl⟩
  have hnowhere : nowhere.IsFinite := ⟨rfl, rfl⟩
  have hdisjoint : nowhere.isDisjoint = true := by decide
  obtain ⟨-, -, hcomm, hassoc, -, -, hmem, -⟩ := inter_semilattice hfive hthree hnowhere
  obtain ⟨-, -, -, -, -, -, -, hinter, -⟩ := inter_semilattice hnowhere hfive hthree
  have hne : upToFive.inter upToThree ≠ upToThree.inter upToFive := by decide
  refine ⟨hfive, hthree, hnowhere, hne, hcomm, hassoc, ?_, hdisjoint, hinter (Or.inl hdisjoint)⟩
  rw [hmem, upToFive, upToThree, mem_interval, mem_interval]
  norm_num [Binary64.toRat, numberAt, Binary64.key, Binary64.parts, Binary64.leadingBit,
    Int.sign_eq_one_of_pos]

end Bound

end Tilework
