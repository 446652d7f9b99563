import Mathlib.Data.List.Nodup
import Tilework.Proofs.WellFormed

/-!
# Stamped tiles

The number and the id can both be read off a stamped id, so tiles that are stamped with different
numbers share no id. Stamping gives a tile other ids and ends and changes nothing else: the tile is
well formed as before, and its boundaries keep their order.
-/

namespace Tilework

namespace Tile

theorem disjoint_identifiers_stamp {n m : Nat} (h : n ≠ m) (a b : Tile) :
    (a.stamp n).identifiers.Disjoint (b.stamp m).identifiers := by
  intro id ha hb
  rw [identifiers_stamp] at ha hb
  obtain ⟨x, -, rfl⟩ := List.mem_map.mp ha
  obtain ⟨y, -, heq⟩ := List.mem_map.mp hb
  exact h (stampId_inj.mp heq).1.symm

theorem mem_locationIds_stamp {ns : Nat} {tile : Tile} {id : String} :
    stampId ns id ∈ (tile.stamp ns).locationIds ↔ id ∈ tile.locationIds := by
  rw [locationIds_stamp, List.mem_map_of_injective (stampId_injective ns)]

theorem wellFormed_stamp_iff (ns : Nat) (tile : Tile) :
    (tile.stamp ns).WellFormed ↔ tile.WellFormed := by
  have hlocations : (tile.stamp ns).locationIds.Nodup ↔ tile.locationIds.Nodup := by
    rw [locationIds_stamp, List.nodup_map_iff (stampId_injective ns)]
  have htransitions : (tile.stamp ns).transitionIds.Nodup ↔ tile.transitionIds.Nodup := by
    rw [transitionIds_stamp, List.nodup_map_iff (stampId_injective ns)]
  have hends : (∀ t ∈ (tile.stamp ns).transitions,
      t.source ∈ (tile.stamp ns).locationIds ∧ t.target ∈ (tile.stamp ns).locationIds) ↔
        ∀ t ∈ tile.transitions, t.source ∈ tile.locationIds ∧ t.target ∈ tile.locationIds := by
    have hend (t : Transition) : (t.stamp ns).source ∈ (tile.stamp ns).locationIds ∧
        (t.stamp ns).target ∈ (tile.stamp ns).locationIds ↔
          t.source ∈ tile.locationIds ∧ t.target ∈ tile.locationIds :=
      and_congr mem_locationIds_stamp mem_locationIds_stamp
    simp only [stamp, List.forall_mem_map]
    exact forall₂_congr fun t _ => hend t
  exact ⟨fun h => ⟨hlocations.mp h.locations, htransitions.mp h.transitions, hends.mp h.endpoints⟩,
    fun h => ⟨hlocations.mpr h.locations, htransitions.mpr h.transitions, hends.mpr h.endpoints⟩⟩

/-- Stamping is injective in the number and the id together, so tiles stamped with different numbers
share no id. A stamped tile is accepted exactly when the tile itself is, has its boundaries in their
order with stamped ids, and differs from it in ids and ends only. -/
theorem stamp_faithful :
    (∀ (n m : Nat) (x y : String), stampId n x = stampId m y ↔ x = y ∧ n = m) ∧
    (∀ (n m : Nat) (a b : Tile), n ≠ m →
      (a.stamp n).identifiers.Disjoint (b.stamp m).identifiers) ∧
    ∀ (ns : Nat) (tile : Tile),
      ((tile.stamp ns).validate = .ok () ↔ tile.validate = .ok ()) ∧
      (∀ role, (tile.stamp ns).boundary role = (tile.boundary role).map (stampId ns)) ∧
      (tile.stamp ns).locationIds = tile.locationIds.map (stampId ns) ∧
      (tile.stamp ns).transitions.map (fun t => (t.id, t.source, t.target)) =
        tile.transitions.map (fun t =>
          (stampId ns t.id, stampId ns t.source, stampId ns t.target)) ∧
      (tile.stamp ns).name = tile.name ∧
      (tile.stamp ns).declaration = tile.declaration ∧
      (tile.stamp ns).parameterBounds = tile.parameterBounds ∧
      (tile.stamp ns).locations.map (fun l => (l.invariant, l.comment, l.isFinal, l.role)) =
        tile.locations.map (fun l => (l.invariant, l.comment, l.isFinal, l.role)) ∧
      (tile.stamp ns).transitions.map (fun t => (t.guard, t.assignment)) =
        tile.transitions.map (fun t => (t.guard, t.assignment)) := by
  refine ⟨fun n m x y => ?_, fun n m a b h => disjoint_identifiers_stamp h a b, fun ns tile =>
    ⟨?_, tile.boundary_stamp ns, tile.locationIds_stamp ns, ?_, rfl, rfl, rfl, ?_, ?_⟩⟩
  · rw [stampId_inj, and_comm]
  · rw [validate_eq_ok_iff, validate_eq_ok_iff, wellFormed_stamp_iff]
  all_goals
    rw [stamp, List.map_map]
    rfl

example : stampId 1 "l1" = "l1_1" ∧ stampId 11 "l" = "l_11" ∧ stampId 4 "l_3" = "l_3_4" := by
  decide

end Tile

end Tilework
