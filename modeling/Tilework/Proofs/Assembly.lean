import Mathlib.Algebra.GroupWithZero.Nat
import Mathlib.Data.List.Forall2
import Mathlib.Data.List.Perm.Basic
import Tilework.Proofs.Expression
import Tilework.Proofs.Merge

/-!
# Assemblies

An assembly is an expression tree over instances, which are tiles with the places at which they were
loaded. It assembles to one tile when the boundaries fit at every operator. Its labels are
those that the operators feed, in the order in which they are applied; the label of a lone leaf
still waits. Ids, transitions and names of the assembled tile are read off the assembly.
-/

namespace Tilework

/-- A tile as it was loaded, and its place among the loaded tiles. Places go on behind the greatest
namespace. -/
structure Instance where
  ordinal : Nat
  tile : Tile
deriving DecidableEq, Repr

namespace Instance

/-- The namespace of an instance. Namespaces have 32 bits. -/
def ns (i : Instance) : Nat := i.ordinal % 2 ^ 32

def stamped (i : Instance) : Tile := i.tile.stamp i.ns

end Instance

abbrev Assembly := Expression Instance

namespace Expression

/-- The tile of an assembly, if the boundaries fit at every operator. -/
def assemble : Assembly → Option Tile
  | leaf i => some i.stamped
  | sizeMatched left right => do Operator.sizeMatched.unite? [← left.assemble, ← right.assemble]
  | singleEdge left right => do Operator.singleEdge.unite? [← left.assemble, ← right.assemble]
  | fanOut root first second => do
    Operator.fanOut.unite? [← root.assemble, ← first.assemble, ← second.assemble]

/-- All joints, those of the parts of an operator before its own. -/
def joints : Assembly → List Joint
  | leaf _ => []
  | sizeMatched left right =>
    left.joints ++ right.joints ++ Operator.sizeMatched.planned ([left, right].filterMap assemble)
  | singleEdge left right =>
    left.joints ++ right.joints ++ Operator.singleEdge.planned ([left, right].filterMap assemble)
  | fanOut root first second =>
    root.joints ++ first.joints ++ second.joints ++
      Operator.fanOut.planned ([root, first, second].filterMap assemble)

/-- The label that no operator has fed. -/
def label? : Assembly → Option String
  | leaf i => i.tile.parameterBounds
  | _ => none

/-- The labels that the operators feed, in the order in which they are applied. -/
def labels : Assembly → List String
  | leaf _ => []
  | sizeMatched left right => left.labels ++ right.labels ++ [left, right].filterMap label?
  | singleEdge left right => left.labels ++ right.labels ++ [left, right].filterMap label?
  | fanOut root first second =>
    root.labels ++ first.labels ++ second.labels ++ [root, first, second].filterMap label?

def Assembled (parts : List Assembly) (tiles : List Tile) : Prop :=
  parts.map assemble = tiles.map some

variable {assembly : Assembly} {op : Operator} {parts : List Assembly} {tiles : List Tile}
  {tile : Tile}

theorem Assembled.filterMap (h : Assembled parts tiles) : parts.filterMap assemble = tiles := by
  have hid : parts.filterMap assemble = (parts.map assemble).filterMap fun t => t := by
    simp [List.filterMap_map]
  rw [hid, h]
  simp [List.filterMap_map]

theorem Assembled.exists_tile (h : Assembled parts tiles) {part : Assembly} (hp : part ∈ parts) :
    ∃ t ∈ tiles, part.assemble = some t := by
  have hmem : part.assemble ∈ tiles.map some := h ▸ List.mem_map_of_mem hp
  obtain ⟨t, ht, he⟩ := List.mem_map.mp hmem
  exact ⟨t, ht, he.symm⟩

theorem Assembled.exists_part (h : Assembled parts tiles) {t : Tile} (ht : t ∈ tiles) :
    ∃ part ∈ parts, part.assemble = some t :=
  List.mem_map.mp (h ▸ List.mem_map_of_mem ht : some t ∈ parts.map assemble)

theorem Assembled.flatMap {α : Type} (h : Assembled parts tiles) (f : Tile → List α) :
    tiles.flatMap f = parts.flatMap fun part => part.assemble.toList.flatMap f := by
  rw [← h.filterMap, List.filterMap_eq_flatMap_toList, List.flatMap_assoc]

theorem Assembled.flatMap_eq {α : Type} (h : Assembled parts tiles) {f : Assembly → List α}
    {g : Tile → List α} (hfg : ∀ part ∈ parts, ∀ t, part.assemble = some t → g t = f part) :
    tiles.flatMap g = parts.flatMap f := by
  rw [h.flatMap]
  apply List.flatMap_congr
  intro part hp
  obtain ⟨t, -, ht⟩ := h.exists_tile hp
  simp [ht, hfg part hp t ht]

theorem Assembled.flatMap_perm {α : Type} (h : Assembled parts tiles) {f : Assembly → List α}
    {g : Tile → List α} (hfg : ∀ part ∈ parts, ∀ t, part.assemble = some t → (g t).Perm (f part)) :
    (tiles.flatMap g).Perm (parts.flatMap f) := by
  rw [h.flatMap]
  apply List.Perm.flatMap_left
  intro part hp
  obtain ⟨t, -, ht⟩ := h.exists_tile hp
  simpa [ht] using hfg part hp t ht

theorem Assembled.flatMap_forall₂ {α β : Type} {R : α → β → Prop} (h : Assembled parts tiles)
    {f : Assembly → List α} {g : Tile → List β}
    (hfg : ∀ part ∈ parts, ∀ t, part.assemble = some t → List.Forall₂ R (f part) (g t)) :
    List.Forall₂ R (parts.flatMap f) (tiles.flatMap g) := by
  induction parts generalizing tiles with
  | nil =>
    cases tiles with
    | nil => exact .nil
    | cons t tiles => cases h
  | cons part parts ih =>
    cases tiles with
    | nil => cases h
    | cons t tiles =>
      obtain ⟨ht, hrest⟩ := List.cons.inj h
      rw [List.flatMap_cons, List.flatMap_cons]
      exact List.rel_append (hfg part (by simp) t ht) (ih hrest fun p hp => hfg p (by simp [hp]))

theorem mapM_assemble {parts : List Assembly} {tiles : List Tile} :
    parts.mapM assemble = some tiles ↔ Assembled parts tiles := by
  induction parts generalizing tiles with
  | nil => cases tiles <;> simp [Assembled]
  | cons part parts ih =>
    rw [List.mapM_cons]
    cases tiles with
    | nil => simp [Assembled, Option.bind_eq_some_iff]
    | cons t tiles =>
      simp only [Option.bind_eq_bind, Option.bind_eq_some_iff, Option.pure_def, Option.some.injEq,
        ih, Assembled, List.map_cons, List.cons.injEq]
      constructor
      · rintro ⟨_, ht, _, hts, rfl, rfl⟩
        exact ⟨ht, hts⟩
      · rintro ⟨ht, hts⟩
        exact ⟨t, ht, tiles, hts, rfl, rfl⟩

theorem assemble_eq_bind (h : assembly.node? = some (op, parts)) :
    assembly.assemble = (parts.mapM assemble).bind op.unite? := by
  cases assembly <;> cases h <;> simp [assemble, List.mapM_cons, Option.bind_assoc]

theorem assemble_node (h : assembly.node? = some (op, parts)) :
    assembly.assemble = some tile ↔
      ∃ tiles, Assembled parts tiles ∧ op.unite? tiles = some tile := by
  rw [assemble_eq_bind h, Option.bind_eq_some_iff]
  simp only [mapM_assemble]

/-- Induction over assemblies that assemble, with one case for all operators. -/
theorem assemble_induction
    {motive : (assembly : Assembly) → (tile : Tile) → assembly.assemble = some tile → Prop}
    (leaf : ∀ i, motive (leaf i) i.stamped rfl)
    (node : ∀ assembly op parts tiles h, assembly.node? = some (op, parts) →
      Assembled parts tiles → Operator.Planned op tiles (op.planned tiles) →
      (∀ part ∈ parts, ∀ t ht, motive part t ht) →
      motive assembly (op.merge tiles (op.planned tiles)) h)
    {assembly : Assembly} {tile : Tile} (h : assembly.assemble = some tile) :
    motive assembly tile h := by
  induction assembly using induction_node generalizing tile with
  | leaf i =>
    cases h
    exact leaf i
  | node assembly op parts hnode ih =>
    obtain ⟨tiles, hparts, hunite⟩ := (assemble_node hnode).mp h
    obtain ⟨hplanned, rfl⟩ := Operator.unite?_eq_some hunite
    exact node assembly op parts tiles h hnode hparts hplanned fun part hp t ht => ih part hp ht

theorem joints_node (h : assembly.node? = some (op, parts)) :
    assembly.joints = parts.flatMap joints ++ op.planned (parts.filterMap assemble) := by
  cases assembly <;> cases h <;> simp [joints]

theorem labels_node (h : assembly.node? = some (op, parts)) :
    assembly.labels = parts.flatMap labels ++ parts.filterMap label? := by
  cases assembly <;> cases h <;> simp [labels]

theorem parameterBounds_assemble (h : assembly.assemble = some tile) :
    tile.parameterBounds = assembly.label? := by
  induction h using assemble_induction with
  | leaf i => rfl
  | node assembly op parts tiles h hnode hparts hplanned ih =>
    rw [Operator.parameterBounds_merge]
    cases assembly <;> cases hnode <;> rfl

theorem Assembled.filterMap_label? (h : Assembled parts tiles) :
    tiles.filterMap (·.parameterBounds) = parts.filterMap label? := by
  rw [List.filterMap_eq_flatMap_toList, List.filterMap_eq_flatMap_toList]
  apply h.flatMap_eq
  intro part _ t ht
  rw [parameterBounds_assemble ht]

theorem exists_leaf_of_label? {label : String} (h : assembly.label? = some label) :
    ∃ i ∈ assembly.leaves, i.tile.parameterBounds = some label := by
  cases assembly with
  | leaf i => exact ⟨i, by simp [leaves], h⟩
  | sizeMatched left right => cases h
  | singleEdge left right => cases h
  | fanOut root first second => cases h

theorem exists_leaf_of_mem_labels {label : String} (h : label ∈ assembly.labels) :
    ∃ i ∈ assembly.leaves, i.tile.parameterBounds = some label := by
  induction assembly using induction_node with
  | leaf i => cases h
  | node assembly op parts hnode ih =>
    rw [labels_node hnode] at h
    rw [leaves_node hnode]
    rcases List.mem_append.mp h with hinner | hown
    · obtain ⟨part, hp, hlabel⟩ := List.mem_flatMap.mp hinner
      obtain ⟨i, hi, hi_label⟩ := ih part hp hlabel
      exact ⟨i, List.mem_flatMap.mpr ⟨part, hp, hi⟩, hi_label⟩
    · obtain ⟨part, hp, hlabel⟩ := List.mem_filterMap.mp hown
      obtain ⟨i, hi, hi_label⟩ := exists_leaf_of_label? hlabel
      exact ⟨i, List.mem_flatMap.mpr ⟨part, hp, hi⟩, hi_label⟩

def locations (assembly : Assembly) : List Location :=
  assembly.leaves.flatMap (·.stamped.locations)

def locationIds (assembly : Assembly) : List String :=
  assembly.leaves.flatMap (·.stamped.locationIds)

def transitionIds (assembly : Assembly) : List String :=
  assembly.leaves.flatMap (·.stamped.transitionIds)

theorem transitionIds_node (h : assembly.node? = some (op, parts)) :
    assembly.transitionIds = parts.flatMap transitionIds := by
  rw [transitionIds, leaves_node h, List.flatMap_assoc]
  rfl

theorem map_id_locations (assembly : Assembly) :
    assembly.locations.map (·.id) = assembly.locationIds :=
  List.map_flatMap

theorem locationIds_node (h : assembly.node? = some (op, parts)) :
    assembly.locationIds = parts.flatMap locationIds := by
  rw [locationIds, leaves_node h, List.flatMap_assoc]
  rfl

theorem locations_node (h : assembly.node? = some (op, parts)) :
    assembly.locations = parts.flatMap locations := by
  rw [locations, leaves_node h, List.flatMap_assoc]
  rfl

theorem locationIds_assemble (h : assembly.assemble = some tile) :
    tile.locationIds = assembly.locationIds := by
  induction h using assemble_induction with
  | leaf i => simp [locationIds, leaves]
  | node assembly op parts tiles h hnode hparts hplanned ih =>
    rw [Operator.locationIds_merge, locationIds_node hnode]
    exact hparts.flatMap_eq ih

theorem Assembled.locationIds_absorbAll (hparts : Assembled parts tiles)
    (h : assembly.node? = some (op, parts)) :
    (op.absorbAll tiles).locationIds = assembly.locationIds := by
  rw [Operator.locationIds_absorbAll, locationIds_node h]
  exact hparts.flatMap_eq fun part _ t ht => locationIds_assemble ht

theorem nodup_of_mem_parts (h : assembly.node? = some (op, parts))
    (hnd : assembly.locationIds.Nodup) : ∀ part ∈ parts, part.locationIds.Nodup := by
  rw [locationIds_node h] at hnd
  exact (List.nodup_flatMap.mp hnd).1

end Expression

end Tilework
