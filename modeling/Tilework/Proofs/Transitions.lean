import Tilework.Proofs.Wiring

/-!
# The transitions of an assembly

A wire is a transition that was loaded with a leaf, or the edge of a joint. The wires of an assembly
stand in the order in which merging puts them: those of the parts of an operator, then its own
joints. They become the transitions of the assembled tile, one by one; while ids are distinct, an
edge can also be read off that tile. Without the edges they are the transitions of the leaves, in
the order of the leaves.
-/

namespace Tilework

inductive Wire where
  | loaded (t : Transition)
  | joining (joint : Joint)

namespace Wire

def loaded? : Wire → Option Transition
  | loaded t => some t
  | joining _ => none

def joining? : Wire → Option Joint
  | loaded _ => none
  | joining joint => some joint

def transition (tile : Tile) : Wire → Transition
  | loaded t => t
  | joining joint => joint.edge tile

/-- What a wire becomes in a tile. An edge has the ends of its joint, an id made of them, no guard,
and some assignment. -/
inductive Becomes : Wire → Transition → Prop
  | loaded (t : Transition) : Becomes (.loaded t) t
  | joining (joint : Joint) (assignment : Option String) :
    Becomes (.joining joint) {
      id := joint.exit ++ "->" ++ joint.entry
      source := joint.exit
      target := joint.entry
      assignment }

@[simp] theorem loaded?_loaded (t : Transition) : (loaded t).loaded? = some t := rfl

@[simp] theorem loaded?_joining (joint : Joint) : (joining joint).loaded? = none := rfl

@[simp] theorem joining?_loaded (t : Transition) : (loaded t).joining? = none := rfl

@[simp] theorem joining?_joining (joint : Joint) : (joining joint).joining? = some joint := rfl

end Wire

namespace Expression

variable {assembly : Assembly} {op : Operator} {parts : List Assembly} {tile : Tile}

def wires : Assembly → List Wire
  | leaf i => i.stamped.transitions.map .loaded
  | sizeMatched left right =>
    left.wires ++ right.wires ++
      (Operator.sizeMatched.planned ([left, right].filterMap assemble)).map .joining
  | singleEdge left right =>
    left.wires ++ right.wires ++
      (Operator.singleEdge.planned ([left, right].filterMap assemble)).map .joining
  | fanOut root first second =>
    root.wires ++ first.wires ++ second.wires ++
      (Operator.fanOut.planned ([root, first, second].filterMap assemble)).map .joining

theorem wires_node (h : assembly.node? = some (op, parts)) :
    assembly.wires =
      parts.flatMap wires ++ (op.planned (parts.filterMap assemble)).map .joining := by
  cases assembly <;> cases h <;> simp [wires]

theorem filterMap_loaded?_wires (assembly : Assembly) :
    assembly.wires.filterMap Wire.loaded? =
      assembly.leaves.flatMap (·.stamped.transitions) := by
  induction assembly using induction_node with
  | leaf i => simp [wires, leaves, Function.comp_def]
  | node assembly op parts hnode ih =>
    have hjoints (joints : List Joint) :
        (joints.map Wire.joining).filterMap Wire.loaded? = [] := by
      simp [Function.comp_def]
    rw [wires_node hnode, leaves_node hnode, List.filterMap_append, hjoints, List.append_nil,
      List.filterMap_flatMap, List.flatMap_assoc]
    exact List.flatMap_congr ih

theorem filterMap_joining?_wires (assembly : Assembly) :
    assembly.wires.filterMap Wire.joining? = assembly.joints := by
  induction assembly using induction_node with
  | leaf i => simp [wires, joints, Function.comp_def]
  | node assembly op parts hnode ih =>
    have hjoints (joints : List Joint) :
        (joints.map Wire.joining).filterMap Wire.joining? = joints := by
      simp [Function.comp_def]
    rw [wires_node hnode, joints_node hnode, List.filterMap_append, hjoints,
      List.filterMap_flatMap, List.flatMap_congr ih]

theorem mem_joints_of_mem_wires {joint : Joint} (h : .joining joint ∈ assembly.wires) :
    joint ∈ assembly.joints := by
  rw [← filterMap_joining?_wires]
  exact List.mem_filterMap.mpr ⟨_, h, rfl⟩

/-- The wires of an assembly become the transitions of its tile, in their order. -/
theorem becomes_assemble {tile : Tile} (h : assembly.assemble = some tile) :
    List.Forall₂ Wire.Becomes assembly.wires tile.transitions := by
  induction h using assemble_induction with
  | leaf i =>
    rw [wires, List.forall₂_map_left_iff, List.forall₂_same]
    exact fun t _ => .loaded t
  | node assembly op parts tiles h hnode hparts hplanned ih =>
    have hjoints : List.Forall₂ Wire.Becomes ((op.planned tiles).map .joining)
        ((op.planned tiles).map (·.edge (op.absorbAll tiles))) := by
      rw [List.forall₂_map_left_iff, List.forall₂_map_right_iff, List.forall₂_same]
      exact fun joint _ => .joining joint _
    rw [Operator.transitions_merge, wires_node hnode, hparts.filterMap]
    exact List.rel_append (hparts.flatMap_forall₂ ih) hjoints

end Expression

namespace Tile

variable {tile : Tile}

theorem location?_id (hnd : tile.locationIds.Nodup) {l : Location} (hl : l ∈ tile.locations) :
    tile.location? l.id = some l := by
  obtain ⟨k, hk⟩ : ∃ k, tile.location? l.id = some k := by
    rw [location?, ← Option.isSome_iff_exists, List.find?_isSome]
    exact ⟨l, hl, by simp⟩
  have hid : k.id = l.id := by simpa using List.find?_some hk
  rw [hk, List.inj_on_of_nodup_map hnd (List.mem_of_find?_eq_some hk) hl hid]

theorem comment?_id (hnd : tile.locationIds.Nodup) {l : Location} (hl : l ∈ tile.locations) :
    tile.comment? l.id = l.comment := by
  rw [comment?, location?_id hnd hl]
  rfl

theorem comment?_foldl_join (tile : Tile) (joints : List Joint) (id : String) :
    (joints.foldl join tile).comment? id = tile.comment? id :=
  foldl_keeps (·.comment? id) join (fun tile joint => tile.comment?_join joint id) joints tile

end Tile

theorem Operator.comment?_merge {op : Operator} {tiles : List Tile} {joints : List Joint}
    (hnd : (op.absorbAll tiles).locationIds.Nodup) {tile : Tile} (htile : tile ∈ tiles)
    {id : String} (hid : id ∈ tile.locationIds) :
    (op.merge tiles joints).comment? id = tile.comment? id := by
  obtain ⟨l, hl, rfl⟩ := List.mem_map.mp hid
  have hmem : l ∈ (op.absorbAll tiles).locations := by
    rw [locations_absorbAll]
    exact List.mem_flatMap.mpr ⟨tile, htile, hl⟩
  have htile_nd : tile.locationIds.Nodup := by
    rw [locationIds_absorbAll] at hnd
    exact (List.nodup_flatMap.mp hnd).1 tile htile
  rw [merge, Tile.comment?_foldl_join, Tile.comment?_id hnd hmem, Tile.comment?_id htile_nd hl]

namespace Expression

variable {assembly : Assembly} {tile : Tile}

/-- The transitions of the assembled tile are its wires, in their order. -/
theorem transitions_assemble (h : assembly.assemble = some tile)
    (hnd : assembly.locationIds.Nodup) :
    tile.transitions = assembly.wires.map (Wire.transition tile) := by
  induction h using assemble_induction with
  | leaf i =>
    rw [wires, List.map_map]
    exact (List.map_id _).symm
  | node assembly op parts tiles h hnode hparts hplanned ih =>
    have habsorb : (op.absorbAll tiles).locationIds.Nodup := by
      rwa [hparts.locationIds_absorbAll hnode]
    have hown : ∀ part ∈ parts, ∀ t, part.assemble = some t →
        part.wires.map (Wire.transition t) =
          part.wires.map (Wire.transition (op.merge tiles (op.planned tiles))) := by
      intro part hp t ht
      apply List.map_congr_left
      intro wire hwire
      cases wire with
      | loaded u => rfl
      | joining joint =>
        obtain ⟨other, hother, hassembled⟩ := hparts.exists_tile hp
        obtain rfl : other = t := Option.some.inj (hassembled.symm.trans ht)
        have hend : joint.entry ∈ part.ends :=
          Joint.mem_ends.mpr (Or.inr (List.mem_map_of_mem (mem_joints_of_mem_wires hwire)))
        have hid : joint.entry ∈ other.locationIds := by
          rw [locationIds_assemble ht]
          exact ends_subset ht hend
        simp only [Wire.transition, Joint.edge_eq, Operator.comment?_merge habsorb hother hid]
    have hjoints : (op.planned tiles).map (·.edge (op.absorbAll tiles)) =
        (op.planned tiles).map (·.edge (op.merge tiles (op.planned tiles))) := by
      apply List.map_congr_left
      intro joint _
      simp only [Joint.edge_eq, Operator.merge, Tile.comment?_foldl_join]
    have hold : tiles.flatMap (·.transitions) = parts.flatMap fun part =>
        part.wires.map (Wire.transition (op.merge tiles (op.planned tiles))) := by
      apply hparts.flatMap_eq
      intro part hp t ht
      rw [ih part hp t ht (nodup_of_mem_parts hnode hnd part hp), hown part hp t ht]
    rw [Operator.transitions_merge, wires_node hnode, hparts.filterMap, List.map_append,
      List.map_flatMap, List.map_map, hold, hjoints]
    rfl

end Expression

end Tilework
