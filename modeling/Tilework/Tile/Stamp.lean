import Tilework.Tile.Basic

/-!
# Namespaces

Every tile instance is stamped with a number before it is composed: an underscore and the number are
appended to all its ids and endpoints. The digits after the last underscore of an id are then its
namespace, so instances with different numbers never share an id.
-/

namespace Tilework

def stampId (ns : Nat) (id : String) : String := id ++ "_" ++ toString ns

def Location.stamp (ns : Nat) (l : Location) : Location := { l with id := stampId ns l.id }

def Transition.stamp (ns : Nat) (t : Transition) : Transition :=
  { t with id := stampId ns t.id, source := stampId ns t.source, target := stampId ns t.target }

def Tile.stamp (ns : Nat) (tile : Tile) : Tile :=
  { tile with
    locations := tile.locations.map (·.stamp ns)
    transitions := tile.transitions.map (·.stamp ns) }

@[simp] theorem Tile.name_stamp (ns : Nat) (tile : Tile) : (tile.stamp ns).name = tile.name := rfl

@[simp] theorem Tile.locationIds_stamp (ns : Nat) (tile : Tile) :
    (tile.stamp ns).locationIds = tile.locationIds.map (stampId ns) := by
  simp [Tile.stamp, locationIds, Location.stamp, Function.comp_def]

@[simp] theorem Tile.transitionIds_stamp (ns : Nat) (tile : Tile) :
    (tile.stamp ns).transitionIds = tile.transitionIds.map (stampId ns) := by
  simp [Tile.stamp, transitionIds, Transition.stamp, Function.comp_def]

/-- Numbers of 32 bits are given out in ascending order. Behind the greatest one they start
again. -/
structure NamespaceCounter where
  next : UInt32 := 0
deriving DecidableEq, Repr, Inhabited

namespace NamespaceCounter

def stamp (counter : NamespaceCounter) (tile : Tile) : Tile × NamespaceCounter :=
  (tile.stamp counter.next.toNat, ⟨counter.next + 1⟩)

/-- Start again at zero. Tiles stamped before and after may share ids. -/
def reset (_ : NamespaceCounter) : NamespaceCounter := ⟨0⟩

end NamespaceCounter

end Tilework
