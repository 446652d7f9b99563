import Mathlib.Data.List.Nodup
import Mathlib.Data.List.Pairwise
import Tilework.Proofs.Assembly

/-!
# The wiring of an assembly

The ends of all joints of an assembly are locations of it. While its location ids are distinct, no
location is an end of two joints, and the tile has the locations of all leaves in order, where
exactly the ends of the joints have left the boundary. Its transitions are those of the leaves
and the edges of the joints, in some order, and they end at its locations.
-/

namespace Tilework

theorem eq_of_mem_of_nodup_flatMap {α β : Type} {xs : List α} {f : α → List β}
    (h : (xs.flatMap f).Nodup) {x y : α} (hx : x ∈ xs) (hy : y ∈ xs) {z : β} (hzx : z ∈ f x)
    (hzy : z ∈ f y) : x = y := by
  by_contra hne
  have hdisjoint : xs.Pairwise fun x y => List.Disjoint (f x) (f y) := (List.nodup_flatMap.mp h).2
  have : Std.Symm fun x y => List.Disjoint (f x) (f y) := ⟨fun _ _ h _ hy hx => h hx hy⟩
  exact hdisjoint.forall hx hy hne hzx hzy

namespace Joint

theorem ends_append (joints joints' : List Joint) :
    ends (joints ++ joints') = ends joints ++ ends joints' := List.flatMap_append

theorem ends_flatMap {α : Type} (xs : List α) (f : α → List Joint) :
    ends (xs.flatMap f) = xs.flatMap fun x => ends (f x) := List.flatMap_assoc

theorem ends_perm (joints : List Joint) :
    (ends joints).Perm (joints.map (·.exit) ++ joints.map (·.entry)) := by
  simpa [ends, List.map_eq_flatMap] using
    (List.flatMap_append_perm joints (fun j => [j.exit]) fun j => [j.entry]).symm

variable {joints : List Joint} {tile : Tile}

theorem Fit.mem_boundary (h : Fit joints tile) {id : String} (hid : id ∈ ends joints) :
    ∃ role, id ∈ tile.boundary role := by
  rcases mem_ends.mp hid with hexit | hentry
  · exact ⟨.exit, h.exits.subset hexit⟩
  · exact ⟨.entry, h.entries.subset hentry⟩

theorem Fit.ends_subset (h : Fit joints tile) : ends joints ⊆ tile.locationIds := by
  intro id hid
  obtain ⟨role, hrole⟩ := h.mem_boundary hid
  exact (tile.boundary_sublist role).subset hrole

theorem Fit.nodup_ends (h : Fit joints tile) (hnd : tile.locationIds.Nodup) :
    (ends joints).Nodup := by
  have hexits : (joints.map (·.exit)).Nodup :=
    (hnd.sublist (tile.boundary_sublist .exit)).sublist h.exits
  have hentries : (joints.map (·.entry)).Nodup :=
    (hnd.sublist (tile.boundary_sublist .entry)).sublist h.entries
  rw [(ends_perm joints).nodup_iff]
  refine List.nodup_append'.mpr ⟨hexits, hentries, ?_⟩
  intro id hexit hentry
  have := Tile.role_eq_of_mem_boundary hnd (h.exits.subset hexit) (h.entries.subset hentry)
  exact absurd this (by decide)

end Joint

namespace Expression

variable {assembly : Assembly} {tile : Tile}

def ends (assembly : Assembly) : List String := Joint.ends assembly.joints

theorem ends_node {op : Operator} {parts : List Assembly} {tiles : List Tile}
    (h : assembly.node? = some (op, parts)) (hparts : Assembled parts tiles) :
    assembly.ends = parts.flatMap ends ++ Joint.ends (op.planned tiles) := by
  rw [ends, joints_node h, hparts.filterMap, Joint.ends_append, Joint.ends_flatMap]
  rfl

theorem ends_subset (h : assembly.assemble = some tile) : assembly.ends ⊆ assembly.locationIds := by
  induction h using assemble_induction with
  | leaf i => exact List.nil_subset _
  | node assembly op parts tiles h hnode hparts hplanned ih =>
    rw [ends_node hnode hparts, locationIds_node hnode]
    intro id hid
    rcases List.mem_append.mp hid with hold | hnew
    · obtain ⟨part, hp, hid⟩ := List.mem_flatMap.mp hold
      obtain ⟨t, -, ht⟩ := hparts.exists_tile hp
      exact List.mem_flatMap.mpr ⟨part, hp, ih part hp t ht hid⟩
    · rw [← locationIds_node hnode, ← hparts.locationIds_absorbAll hnode]
      exact hplanned.fit.ends_subset hnew

theorem locations_assemble (h : assembly.assemble = some tile)
    (hnd : assembly.locationIds.Nodup) :
    tile.locations = assembly.locations.map (·.release assembly.ends) := by
  induction h using assemble_induction with
  | leaf i => simp [locations, leaves, ends, joints, Joint.ends, Location.release]
  | node assembly op parts tiles h hnode hparts hplanned ih =>
    have hparts_nd : (parts.flatMap locationIds).Nodup := locationIds_node hnode ▸ hnd
    have habsorb : (op.absorbAll tiles).locationIds.Nodup := by
      rwa [hparts.locationIds_absorbAll hnode]
    have hlocations : tiles.flatMap (·.locations) =
        parts.flatMap fun part => part.locations.map (·.release part.ends) :=
      hparts.flatMap_eq fun part hp t ht => ih part hp t ht (nodup_of_mem_parts hnode hnd part hp)
    rw [Operator.merge, Tile.locations_foldl_join, foldl_clearRole habsorb,
      Operator.locations_absorbAll, hlocations, locations_node hnode, List.map_flatMap,
      List.map_flatMap]
    apply List.flatMap_congr
    intro part hp
    rw [List.map_map]
    apply List.map_congr_left
    intro l hl
    -- An end in another part is not an id of this one, since ids are distinct.
    have hmem : l.id ∈ part.ends ↔ l.id ∈ parts.flatMap ends := by
      constructor
      · intro hid
        exact List.mem_flatMap.mpr ⟨part, hp, hid⟩
      · intro hid
        obtain ⟨other, ho, hid⟩ := List.mem_flatMap.mp hid
        obtain ⟨t, -, ht⟩ := hparts.exists_tile ho
        have hl' : l.id ∈ part.locationIds := by
          rw [← map_id_locations]
          exact List.mem_map_of_mem hl
        rwa [eq_of_mem_of_nodup_flatMap hparts_nd hp ho hl' (ends_subset ht hid)]
    rw [Function.comp_apply, Location.release_release, ends_node hnode hparts]
    simp only [Location.release, List.mem_append, hmem]

theorem boundary_assemble (h : assembly.assemble = some tile) (hnd : assembly.locationIds.Nodup)
    {role : Role} {id : String} (hid : id ∈ tile.boundary role) : id ∉ assembly.ends := by
  obtain ⟨l, hl, hrole, rfl⟩ := Tile.mem_boundary.mp hid
  rw [locations_assemble h hnd] at hl
  obtain ⟨k, hk, rfl⟩ := List.mem_map.mp hl
  intro hend
  rw [Location.id_release] at hend
  rw [Location.role_release, if_pos hend] at hrole
  cases hrole

/-- No location is an end of two joints. -/
theorem nodup_ends (h : assembly.assemble = some tile) (hnd : assembly.locationIds.Nodup) :
    assembly.ends.Nodup := by
  induction h using assemble_induction with
  | leaf i => exact List.nodup_nil
  | node assembly op parts tiles h hnode hparts hplanned ih =>
    have hparts_nd : (parts.flatMap locationIds).Nodup := locationIds_node hnode ▸ hnd
    have habsorb : (op.absorbAll tiles).locationIds.Nodup := by
      rwa [hparts.locationIds_absorbAll hnode]
    obtain ⟨heach, hpairwise⟩ := List.nodup_flatMap.mp hparts_nd
    rw [ends_node hnode hparts]
    refine List.nodup_append'.mpr ⟨List.nodup_flatMap.mpr ⟨?_, ?_⟩, ?_, ?_⟩
    · intro part hp
      obtain ⟨t, -, ht⟩ := hparts.exists_tile hp
      exact ih part hp t ht (heach part hp)
    · apply hpairwise.imp_of_mem
      intro part other hp ho hdisjoint
      obtain ⟨t, -, ht⟩ := hparts.exists_tile hp
      obtain ⟨u, -, hu⟩ := hparts.exists_tile ho
      exact fun id hid hid' => hdisjoint (ends_subset ht hid) (ends_subset hu hid')
    · exact hplanned.fit.nodup_ends habsorb
    · intro id hold hnew
      -- An end of a joint in a part has no role there, and so it is not joined again.
      obtain ⟨part, hp, hend⟩ := List.mem_flatMap.mp hold
      obtain ⟨role, hrole⟩ := hplanned.fit.mem_boundary hnew
      rw [Operator.boundary_absorbAll] at hrole
      obtain ⟨t, ht, hrole⟩ := List.mem_flatMap.mp hrole
      obtain ⟨other, ho, hot⟩ := hparts.exists_part ht
      have hpart : id ∈ part.locationIds := by
        obtain ⟨u, -, hu⟩ := hparts.exists_tile hp
        exact ends_subset hu hend
      have hother : id ∈ other.locationIds := by
        rw [← locationIds_assemble hot]
        exact (t.boundary_sublist role).subset hrole
      obtain rfl := eq_of_mem_of_nodup_flatMap hparts_nd hp ho hpart hother
      exact boundary_assemble hot (heach part hp) hrole hend

theorem transitionIds_assemble (h : assembly.assemble = some tile) :
    tile.transitionIds.Perm (assembly.transitionIds ++ assembly.joints.map (·.id)) := by
  induction h using assemble_induction with
  | leaf i => simp [transitionIds, leaves, joints]
  | node assembly op parts tiles h hnode hparts hplanned ih =>
    have hedges : (op.planned tiles).map (fun j => (j.edge (op.absorbAll tiles)).id) =
        (op.planned tiles).map (·.id) := rfl
    have hparts_perm : (tiles.flatMap (·.transitionIds)).Perm
        (parts.flatMap fun part => part.transitionIds ++ part.joints.map (·.id)) :=
      hparts.flatMap_perm ih
    rw [transitionIds_node hnode, joints_node hnode, hparts.filterMap, List.map_append,
      List.map_flatMap, ← List.append_assoc, Tile.transitionIds, Operator.transitions_merge,
      List.map_append, List.map_flatMap, List.map_map]
    exact (hparts_perm.trans (List.flatMap_append_perm _ _ _).symm).append_right _

theorem endpoints_assemble (h : assembly.assemble = some tile)
    (hleaves : ∀ i ∈ assembly.leaves, ∀ t ∈ i.stamped.transitions,
      t.source ∈ i.stamped.locationIds ∧ t.target ∈ i.stamped.locationIds) :
    ∀ t ∈ tile.transitions, t.source ∈ tile.locationIds ∧ t.target ∈ tile.locationIds := by
  induction h using assemble_induction with
  | leaf i => exact hleaves i (by simp [leaves])
  | node assembly op parts tiles h hnode hparts hplanned ih =>
    intro t ht
    rw [Operator.transitions_merge] at ht
    rw [Operator.locationIds_merge]
    rcases List.mem_append.mp ht with hold | hnew
    · obtain ⟨u, hu, htu⟩ := List.mem_flatMap.mp hold
      obtain ⟨part, hp, hpu⟩ := hparts.exists_part hu
      have hsub : ∀ i ∈ part.leaves, i ∈ assembly.leaves := by
        intro i hi
        rw [leaves_node hnode]
        exact List.mem_flatMap.mpr ⟨part, hp, hi⟩
      obtain ⟨hs, ht⟩ := ih part hp u hpu (fun i hi => hleaves i (hsub i hi)) t htu
      exact ⟨List.mem_flatMap.mpr ⟨u, hu, hs⟩, List.mem_flatMap.mpr ⟨u, hu, ht⟩⟩
    · obtain ⟨joint, hj, rfl⟩ := List.mem_map.mp hnew
      rw [← Operator.locationIds_absorbAll op]
      exact ⟨hplanned.fit.ends_subset (Joint.mem_ends.mpr (Or.inl (List.mem_map_of_mem hj))),
        hplanned.fit.ends_subset (Joint.mem_ends.mpr (Or.inr (List.mem_map_of_mem hj)))⟩

end Expression

end Tilework
