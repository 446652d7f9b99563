import Tilework.Proofs.Conservation

/-!
# Joints match boundaries forward

Every joint of an assembly leads from an exit of one leaf to an entry of a leaf that was loaded
later, both as they were loaded. The later leaf has the greater namespace unless namespaces have
started again. No location is an end of two joints, and those that are an end of none keep the role
they were loaded with.
-/

namespace Tilework

/-- A joint leads from an exit of an instance to an entry of one that was loaded later. -/
def Joint.Forward (joint : Joint) (instances : List Instance) : Prop :=
  ∃ i ∈ instances, ∃ j ∈ instances, i.ordinal < j.ordinal ∧
    joint.exit ∈ i.stamped.exits ∧ joint.entry ∈ j.stamped.entries

theorem Joint.Forward.mono {joint : Joint} {instances instances' : List Instance}
    (h : joint.Forward instances) (hsub : instances ⊆ instances') : joint.Forward instances' := by
  obtain ⟨i, hi, j, hj, hlt, hexit, hentry⟩ := h
  exact ⟨i, hsub hi, j, hsub hj, hlt, hexit, hentry⟩

/-- The exits of planned joints belong to the first tile, and their entries to later ones. -/
theorem Operator.Planned.forward {op : Operator} {tiles : List Tile} {joints : List Joint}
    (h : Planned op tiles joints) :
    ∃ first rest, tiles = first :: rest ∧
      ∀ joint ∈ joints, joint.exit ∈ first.exits ∧ ∃ tile ∈ rest, joint.entry ∈ tile.entries := by
  cases h with
  | @sizeMatched left right _ hexits hentries =>
    refine ⟨left, [right], rfl, ?_⟩
    intro joint hj
    rw [← hexits]
    refine ⟨List.mem_map_of_mem hj, right, List.mem_singleton_self _, ?_⟩
    rw [← hentries]
    exact List.mem_map_of_mem hj
  | @singleEdge left right exit entry exits entries hexits hentries =>
    refine ⟨left, [right], rfl, ?_⟩
    simp [hexits, hentries]
  | @fanOut root first second exit exit' entry entry' hroot hfirst hsecond =>
    refine ⟨root, [first, second], rfl, ?_⟩
    simp [hroot, hfirst, hsecond]

namespace Expression

variable {assembly : Assembly} {tile : Tile}

theorem exists_leaf_of_mem_boundary (h : assembly.assemble = some tile)
    (hnd : assembly.locationIds.Nodup) {role : Role} {id : String} (hid : id ∈ tile.boundary role) :
    ∃ i ∈ assembly.leaves, id ∈ i.stamped.boundary role := by
  obtain ⟨l, hl, hrole, rfl⟩ := Tile.mem_boundary.mp hid
  rw [locations_assemble h hnd] at hl
  obtain ⟨k, hk, rfl⟩ := List.mem_map.mp hl
  obtain ⟨i, hi, hk⟩ := List.mem_flatMap.mp hk
  rw [Location.role_release] at hrole
  split at hrole
  · cases hrole
  · exact ⟨i, hi, Tile.mem_boundary.mpr ⟨k, hk, hrole, (k.id_release _).symm⟩⟩

/-- When the leaves of an assembly stand as they were loaded, its joints lead forward. -/
theorem forward_of_mem_joints (h : assembly.assemble = some tile)
    (hnd : assembly.locationIds.Nodup)
    (hascend : assembly.leaves.Pairwise fun i j => i.ordinal < j.ordinal) :
    ∀ joint ∈ assembly.joints, joint.Forward assembly.leaves := by
  induction h using assemble_induction with
  | leaf i => exact fun joint hj => absurd hj List.not_mem_nil
  | node assembly op parts tiles h hnode hparts hplanned ih =>
    have hleaves := leaves_node hnode
    have hsub : ∀ part ∈ parts, part.leaves ⊆ assembly.leaves := by
      intro part hp
      rw [hleaves]
      exact fun i hi => List.mem_flatMap.mpr ⟨part, hp, hi⟩
    have heach := nodup_of_mem_parts hnode hnd
    intro joint hj
    rw [joints_node hnode, hparts.filterMap] at hj
    rcases List.mem_append.mp hj with hinner | hown
    · obtain ⟨part, hp, hj⟩ := List.mem_flatMap.mp hinner
      obtain ⟨t, -, ht⟩ := hparts.exists_tile hp
      have hpart : part.leaves.Pairwise fun i j => i.ordinal < j.ordinal := by
        rw [hleaves] at hascend
        exact (List.pairwise_flatMap.mp hascend).1 part hp
      exact (ih part hp t ht (heach part hp) hpart joint hj).mono (hsub part hp)
    · obtain ⟨first, rest, rfl, hforward⟩ := hplanned.forward
      obtain ⟨hexit, t, htmem, hentry⟩ := hforward joint hown
      obtain ⟨root, others, rfl, hroot, hothers⟩ := List.map_eq_cons_iff.mp hparts
      obtain ⟨part, hp, ht⟩ := Assembled.exists_part hothers htmem
      obtain ⟨i, hi, hiexit⟩ := exists_leaf_of_mem_boundary hroot (heach root (by simp)) hexit
      obtain ⟨j, hj, hjentry⟩ := exists_leaf_of_mem_boundary ht (heach part (by simp [hp])) hentry
      have hlt : i.ordinal < j.ordinal := by
        rw [hleaves, List.flatMap_cons] at hascend
        exact (List.pairwise_append.mp hascend).2.2 i hi j (List.mem_flatMap.mpr ⟨part, hp, hj⟩)
      exact ⟨i, hsub root (by simp) hi, j, hsub part (by simp [hp]) hj, hlt, hiexit, hjentry⟩

/-- A location has the role that it was loaded with, unless it is an end of a joint. -/
theorem roles_assemble (h : assembly.assemble = some tile) (hnd : assembly.locationIds.Nodup) :
    List.Forall₂ (fun loaded l => l.id = loaded.id ∧
        ∀ role, l.role = some role ↔ loaded.role = some role ∧ l.id ∉ assembly.ends)
      assembly.locations tile.locations := by
  rw [locations_assemble h hnd, List.forall₂_map_right_iff, List.forall₂_same]
  intro l _
  refine ⟨l.id_release _, fun role => ?_⟩
  rw [Location.role_release, Location.id_release]
  by_cases hend : l.id ∈ assembly.ends <;> simp [hend]

end Expression

theorem Joint.exists_edge_eq {joint : Joint} {tile : Tile} (hnd : tile.locationIds.Nodup)
    (hentry : joint.entry ∈ tile.locationIds) :
    ∃ l ∈ tile.locations, l.id = joint.entry ∧
      joint.edge tile = {
        id := joint.exit ++ "->" ++ joint.entry
        source := joint.exit
        target := joint.entry
        guard := none
        assignment := l.comment.bind normalizeAssignment } := by
  obtain ⟨l, hl, hid⟩ := List.mem_map.mp hentry
  refine ⟨l, hl, hid, ?_⟩
  rw [edge_eq, ← Tile.comment?_id hnd hl, hid]
  rfl

section run

variable {σ : Type} [TileSource σ]

theorem Origin.pairwise_ordinal {start m : Machine σ} {lexemes : List Lexeme} {loaded : List Tile}
    {assembly : Assembly} {tile : Tile} (h : Origin start lexemes loaded assembly tile m) :
    assembly.leaves.Pairwise fun i j => i.ordinal < j.ordinal := by
  have hnumber : (number start.namespaces.next.toNat loaded).Pairwise
      fun i j => i.ordinal < j.ordinal := by
    rw [← List.pairwise_map, map_ordinal_number]
    exact List.pairwise_lt_range'
  exact hnumber.sublist h.leaves

/-- Until numbers start again, they are the namespaces. -/
theorem Origin.ns_eq_ordinal {start m : Machine σ} {lexemes : List Lexeme} {loaded : List Tile}
    {assembly : Assembly} {tile : Tile} (h : Origin start lexemes loaded assembly tile m)
    (hlast : start.namespaces.next.toNat + (references lexemes).length ≤ 2 ^ 32) :
    ∀ i ∈ assembly.leaves, i.ns = i.ordinal := by
  intro i hi
  obtain ⟨-, hlt⟩ := h.ordinal_of_mem_leaves hi
  rw [length_serveAll h.served] at hlt
  exact Nat.mod_eq_of_lt (Nat.lt_of_lt_of_le hlt hlast)

variable {source : σ} {namespaces : NamespaceCounter} {bounds : BoundTracker}
  {lexemes : List Lexeme} {stop : Nat} {tile : Tile} {m : Machine σ}

end run

/-- The instances of `turnRun`. The second one has started the namespaces again. -/
def turnAssembly : Assembly :=
  .sizeMatched (.leaf ⟨4294967295, gateTile⟩) (.leaf ⟨4294967296, roomTile⟩)

end Tilework
