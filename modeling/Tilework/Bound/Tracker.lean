import Tilework.Bound.Label
import Tilework.Table

/-!
# The bound tracker

The tracker holds a working set, a union of intervals, and the sets stored by name. Adding a label
replaces the working set by all intersections of one of its members with one interval of the label.
-/

namespace Tilework

structure BoundTracker where
  current : List Bound := []
  stored : Table (List Bound) := []
deriving Repr, Inhabited

namespace BoundTracker

/-- The intersections, interval by interval. An empty working set says nothing yet. -/
def combine (current intervals : List Bound) : List Bound :=
  if current.isEmpty then intervals
  else intervals.flatMap fun interval => current.map (·.inter interval)

def add (tracker : BoundTracker) (label : String) : Except LabelFault BoundTracker :=
  (Bound.readLabel label).map fun intervals =>
    { tracker with current := combine tracker.current intervals }

/-- Keep the working set under a name, in place of what was kept there. -/
def store (tracker : BoundTracker) (name : String) : BoundTracker :=
  { tracker with stored := tracker.stored.put name tracker.current }

def get? (tracker : BoundTracker) (name : String) : Option (List Bound) := tracker.stored.get? name

/-- Empty the working set. Stored sets are kept. -/
def reset (tracker : BoundTracker) : BoundTracker := { tracker with current := [] }

def names (tracker : BoundTracker) : List String := ascending tracker.stored.keys

@[simp] theorem combine_nil (intervals : List Bound) : combine [] intervals = intervals := rfl

end BoundTracker

end Tilework
