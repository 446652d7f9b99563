import Tilework.Proofs.Narrowing

/-!
# Bounds with stored marks

A bound can be kept as two sides with two marks beside them, one for a free bound and one for a
disjoint interval, and a working set can be narrowed where it stands: its entries by the first
interval of a label, and for every further interval a narrowed copy of the entries behind them.
Intersections keep the marks true, and the set that is narrowed in place is the set of all
intersections.
-/

namespace Tilework

structure MarkedBound where
  isFree : Bool
  isDisjoint : Bool
  low : Binary64
  high : Binary64
deriving DecidableEq, Repr

namespace MarkedBound

def ofSides (low high : Binary64) : MarkedBound := ⟨false, decide (high < low), low, high⟩

def free : MarkedBound := ⟨true, false, .nan, .nan⟩

def inter (a b : MarkedBound) : MarkedBound :=
  if a.isFree then b else if b.isFree then a else ofSides (a.low.sup b.low) (a.high.inf b.high)

end MarkedBound

def Bound.marked : Bound → MarkedBound
  | free => .free
  | interval low high => .ofSides low high

namespace MarkedBound

/-- Narrow a working set by the intervals of a label. -/
def narrow : (current intervals : List MarkedBound) → List MarkedBound
  | [], intervals => intervals
  | current, [] => current
  | current, first :: extra =>
    extra.foldl (fun set branch => set ++ current.map (·.inter branch))
      (current.map (·.inter first))

/-- A label that cannot be read leaves the working set as it is. -/
def addLabel (current : List MarkedBound) (label : String) : List MarkedBound :=
  match Bound.readLabel label with
  | .ok intervals => narrow current (intervals.map Bound.marked)
  | .error _ => current

/-- The entries that are narrowed stand in front of their copies. -/
theorem narrow_eq_flatMap {current : List MarkedBound} (hcurrent : current ≠ [])
    {intervals : List MarkedBound} (hintervals : intervals ≠ []) :
    narrow current intervals =
      intervals.flatMap fun interval => current.map (·.inter interval) := by
  match current, intervals with
  | m :: current, first :: extra =>
    rw [narrow, List.foldl_append_eq_append, List.flatMap_cons, List.flatMap_def]
    exact List.cons_ne_nil _ _

/-- The marks say what the sides are. -/
def IsTrue (m : MarkedBound) : Prop := m = free ∨ m = ofSides m.low m.high

end MarkedBound

namespace Bound

@[simp] theorem isFree_marked (b : Bound) : b.marked.isFree = b.isFree := by cases b <;> rfl

@[simp] theorem isDisjoint_marked (b : Bound) : b.marked.isDisjoint = b.isDisjoint := by
  cases b <;> rfl

@[simp] theorem low_marked (b : Bound) : b.marked.low = b.low := by cases b <;> rfl

@[simp] theorem high_marked (b : Bound) : b.marked.high = b.high := by cases b <;> rfl

theorem marked_injective : Function.Injective marked := by
  rintro (_ | ⟨low, high⟩) (_ | ⟨low', high'⟩) h
  · rfl
  · cases congrArg MarkedBound.isFree h
  · cases congrArg MarkedBound.isFree h
  · rw [show low = low' from congrArg MarkedBound.low h,
      show high = high' from congrArg MarkedBound.high h]

/-- The bounds are the marked bounds whose marks are true. -/
theorem exists_marked_iff {m : MarkedBound} : (∃ b : Bound, b.marked = m) ↔ m.IsTrue := by
  constructor
  · rintro ⟨_ | ⟨low, high⟩, rfl⟩
    · exact Or.inl rfl
    · exact Or.inr rfl
  · rintro (h | h)
    · exact ⟨free, h.symm⟩
    · exact ⟨interval m.low m.high, h.symm⟩

theorem marked_inter (a b : Bound) : (a.inter b).marked = a.marked.inter b.marked := by
  cases a with
  | free =>
    rw [free_inter]
    rfl
  | interval l h => cases b <;> rfl

end Bound

theorem MarkedBound.IsTrue.inter {m n : MarkedBound} (hm : m.IsTrue) (hn : n.IsTrue) :
    (m.inter n).IsTrue := by
  obtain ⟨a, rfl⟩ := Bound.exists_marked_iff.mpr hm
  obtain ⟨b, rfl⟩ := Bound.exists_marked_iff.mpr hn
  exact Bound.exists_marked_iff.mp ⟨a.inter b, Bound.marked_inter a b⟩

namespace BoundTracker

theorem map_marked_combine (current : List Bound) {intervals : List Bound}
    (h : intervals ≠ []) :
    (combine current intervals).map Bound.marked =
      MarkedBound.narrow (current.map Bound.marked) (intervals.map Bound.marked) := by
  by_cases hcurrent : current = []
  · rw [hcurrent]
    rfl
  · rw [combine, if_neg (by simpa using hcurrent),
      MarkedBound.narrow_eq_flatMap (by simpa using hcurrent) (by simpa using h), List.map_flatMap,
      List.flatMap_map]
    refine List.flatMap_congr fun interval _ => ?_
    rw [List.map_map, List.map_map]
    exact List.map_congr_left fun bound _ => Bound.marked_inter bound interval

theorem map_marked_addEach (tracker : BoundTracker) (labels : List String) :
    (tracker.addEach labels).current.map Bound.marked =
      labels.foldl MarkedBound.addLabel (tracker.current.map Bound.marked) := by
  induction labels generalizing tracker with
  | nil => rfl
  | cons label labels ih =>
    rw [addEach, List.foldl_cons, List.foldl_cons, ← addEach, ih]
    congr 1
    cases hread : Bound.readLabel label with
    | error fault => rw [addAll_singleton_of_error hread, MarkedBound.addLabel, hread]
    | ok intervals =>
      rw [addAll_singleton_of_ok hread, MarkedBound.addLabel, hread]
      exact map_marked_combine _ (Bound.readLabel_ne_nil hread)

end BoundTracker

end Tilework
