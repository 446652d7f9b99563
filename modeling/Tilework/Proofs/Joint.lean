import Mathlib.Data.List.Nodup
import Tilework.Proofs.Identifier

/-!
# Joining the boundary of a tile

Joining a tile keeps its locations and its ids and appends one edge for each joint. While location
ids are distinct, exactly the ends of the joints leave the boundary, and what stays of it keeps its
order.
-/

namespace Tilework

/-- A location leaves the boundary if its id is among the given ones. -/
def Location.release (ids : List String) (l : Location) : Location :=
  if l.id ∈ ids then { l with role := none } else l

@[simp] theorem Location.id_release (ids : List String) (l : Location) :
    (l.release ids).id = l.id := by
  unfold release
  split <;> rfl

theorem Location.role_release (ids : List String) (l : Location) :
    (l.release ids).role = if l.id ∈ ids then none else l.role := by
  unfold release
  split <;> rfl

theorem Location.release_release (ids ids' : List String) (l : Location) :
    (l.release ids).release ids' = l.release (ids ++ ids') := by
  by_cases h : l.id ∈ ids <;> by_cases h' : l.id ∈ ids' <;> simp [release, h, h']

theorem clearRole_eq_map {ls : List Location} (hnd : (ls.map (·.id)).Nodup) (id : String) :
    clearRole ls id = ls.map (·.release [id]) := by
  induction ls with
  | nil => rfl
  | cons l ls ih =>
    obtain ⟨hl, hnd⟩ := List.nodup_cons.mp hnd
    rw [clearRole, List.map_cons]
    split
    · next heq =>
      have hrest : ls.map (·.release [id]) = ls.map fun k => k := by
        apply List.map_congr_left
        intro k hk
        have hne : k.id ≠ id := fun he => hl (List.mem_map.mpr ⟨k, hk, he.trans heq.symm⟩)
        simp [Location.release, hne]
      rw [hrest, List.map_id']
      simp [Location.release, heq]
    · next hne =>
      rw [ih hnd]
      simp [Location.release, hne]

theorem foldl_clearRole {ls : List Location} (hnd : (ls.map (·.id)).Nodup) (ids : List String) :
    ids.foldl clearRole ls = ls.map (·.release ids) := by
  induction ids generalizing ls with
  | nil => simp [Location.release]
  | cons id ids ih =>
    rw [List.foldl_cons, ih (by rwa [map_id_clearRole]), clearRole_eq_map hnd, List.map_map]
    apply List.map_congr_left
    intro l _
    exact l.release_release [id] ids

namespace Tile

def comment? (tile : Tile) (id : String) : Option String := (tile.location? id).bind (·.comment)

theorem comment?_clearRole (tile : Tile) (id other : String) :
    (tile.clearRole id).comment? other = tile.comment? other := by
  simp only [comment?, location?, clearRole]
  induction tile.locations with
  | nil => rfl
  | cons l ls ih =>
    rw [Tilework.clearRole]
    by_cases h : l.id = other <;> split <;> simp_all

theorem comment?_join (tile : Tile) (joint : Joint) (id : String) :
    (tile.join joint).comment? id = tile.comment? id := by
  simp only [join, comment?_clearRole]
  rfl

end Tile

/-- The ids that joints take out of the boundary. -/
def Joint.ends (joints : List Joint) : List String :=
  joints.flatMap fun joint => [joint.exit, joint.entry]

theorem Joint.edge_eq (joint : Joint) (tile : Tile) :
    joint.edge tile = {
      id := joint.id
      source := joint.exit
      target := joint.entry
      assignment := (tile.comment? joint.entry).bind normalizeAssignment } := by
  simp only [edge, Tile.comment?, Joint.id]
  cases tile.location? joint.entry <;> rfl

theorem Joint.edge_join (joint other : Joint) (tile : Tile) :
    joint.edge (tile.join other) = joint.edge tile := by
  simp only [edge_eq, Tile.comment?_join]

theorem foldl_keeps {α β γ : Type} (f : α → γ) (step : α → β → α)
    (hstep : ∀ a b, f (step a b) = f a) (bs : List β) (a : α) : f (bs.foldl step a) = f a := by
  induction bs generalizing a with
  | nil => rfl
  | cons b bs ih => rw [List.foldl_cons, ih, hstep]

namespace Tile

variable (tile : Tile) (joints : List Joint)

@[simp] theorem name_foldl_join : (joints.foldl join tile).name = tile.name :=
  foldl_keeps name join (fun _ _ => rfl) joints tile

@[simp] theorem declaration_foldl_join :
    (joints.foldl join tile).declaration = tile.declaration :=
  foldl_keeps declaration join (fun _ _ => rfl) joints tile

@[simp] theorem parameterBounds_foldl_join :
    (joints.foldl join tile).parameterBounds = tile.parameterBounds :=
  foldl_keeps parameterBounds join (fun _ _ => rfl) joints tile

theorem locations_foldl_join :
    (joints.foldl join tile).locations =
      (Joint.ends joints).foldl Tilework.clearRole tile.locations := by
  induction joints generalizing tile with
  | nil => rfl
  | cons joint joints ih => exact ih _

theorem transitions_foldl_join :
    (joints.foldl join tile).transitions = tile.transitions ++ joints.map (·.edge tile) := by
  induction joints generalizing tile with
  | nil => simp
  | cons joint joints ih =>
    rw [List.foldl_cons, ih]
    simp only [Joint.edge_join]
    simp [join, clearRole]

@[simp] theorem locationIds_foldl_join :
    (joints.foldl join tile).locationIds = tile.locationIds := by
  apply foldl_keeps
  intro tile joint
  rw [join, locationIds_clearRole, locationIds_clearRole]
  rfl

/-- Exactly the ends of the joints leave the boundary. -/
theorem boundary_foldl_join (hnd : tile.locationIds.Nodup) (role : Role) :
    (joints.foldl join tile).boundary role =
      (tile.boundary role).filter (· ∉ Joint.ends joints) := by
  rw [boundary, locations_foldl_join, foldl_clearRole hnd, boundary]
  simp only [List.filter_map, List.map_map, List.filter_filter, Function.comp_def,
    Location.id_release, Location.role_release]
  congr 1
  apply List.filter_congr
  intro l _
  by_cases h : l.id ∈ Joint.ends joints <;> simp [h]

theorem mem_boundary {tile : Tile} {role : Role} {id : String} :
    id ∈ tile.boundary role ↔ ∃ l ∈ tile.locations, l.role = some role ∧ l.id = id := by
  simp [boundary, and_assoc]

theorem boundary_sublist (role : Role) : (tile.boundary role).Sublist tile.locationIds :=
  List.filter_sublist.map _

variable {tile joints}

theorem role_eq_of_mem_boundary (hnd : tile.locationIds.Nodup) {role role' : Role} {id : String}
    (h : id ∈ tile.boundary role) (h' : id ∈ tile.boundary role') : role = role' := by
  obtain ⟨l, hl, hr, hid⟩ := mem_boundary.mp h
  obtain ⟨l', hl', hr', hid'⟩ := mem_boundary.mp h'
  have heq : l = l' := List.inj_on_of_nodup_map hnd hl hl' (hid.trans hid'.symm)
  exact Option.some.inj (by rw [← hr, ← hr', heq])

end Tile

/-- Joints lead from exits of a tile to entries of it, each of them joined once. -/
structure Joint.Fit (joints : List Joint) (tile : Tile) : Prop where
  exits : (joints.map (·.exit)).Sublist tile.exits
  entries : (joints.map (·.entry)).Sublist tile.entries

theorem Joint.mem_ends {joints : List Joint} {id : String} :
    id ∈ ends joints ↔ id ∈ joints.map (·.exit) ∨ id ∈ joints.map (·.entry) := by
  simp only [ends, List.mem_flatMap, List.mem_map, List.mem_cons, List.not_mem_nil, or_false]
  constructor
  · rintro ⟨joint, hj, rfl | rfl⟩
    · exact Or.inl ⟨joint, hj, rfl⟩
    · exact Or.inr ⟨joint, hj, rfl⟩
  · rintro (⟨joint, hj, rfl⟩ | ⟨joint, hj, rfl⟩)
    · exact ⟨joint, hj, Or.inl rfl⟩
    · exact ⟨joint, hj, Or.inr rfl⟩

theorem filter_notMem_self (xs : List String) : xs.filter (· ∉ xs) = [] :=
  List.filter_eq_nil_iff.mpr fun x hx => by simp [hx]

theorem filter_notMem_of_disjoint {xs ys : List String} (h : xs.Disjoint ys) :
    xs.filter (· ∉ ys) = xs :=
  List.filter_eq_self.mpr fun _ hx => decide_eq_true (h hx)

theorem filter_notMem_between {before ids behind : List String}
    (hnd : (before ++ (ids ++ behind)).Nodup) :
    (before ++ (ids ++ behind)).filter (· ∉ ids) = before ++ behind := by
  obtain ⟨-, hrest, hdisjoint⟩ := List.nodup_append'.mp hnd
  obtain ⟨-, -, hbehind⟩ := List.nodup_append'.mp hrest
  have hbefore : before.Disjoint ids := (List.disjoint_append_right.mp hdisjoint).1
  rw [List.filter_append, List.filter_append, filter_notMem_of_disjoint hbefore,
    filter_notMem_self, filter_notMem_of_disjoint (List.disjoint_comm.mp hbehind), List.nil_append]

namespace Joint.Fit

variable {joints : List Joint} {tile : Tile}

theorem exits_join (h : Joint.Fit joints tile) (hnd : tile.locationIds.Nodup) :
    (joints.foldl Tile.join tile).exits = tile.exits.filter (· ∉ joints.map (·.exit)) := by
  rw [Tile.exits, tile.boundary_foldl_join joints hnd]
  apply List.filter_congr
  intro id hid
  have hentry : id ∉ joints.map (·.entry) := by
    intro hm
    exact absurd (Tile.role_eq_of_mem_boundary hnd hid (h.entries.subset hm)) (by decide)
  simp only [Joint.mem_ends, hentry, or_false]

theorem entries_join (h : Joint.Fit joints tile) (hnd : tile.locationIds.Nodup) :
    (joints.foldl Tile.join tile).entries = tile.entries.filter (· ∉ joints.map (·.entry)) := by
  rw [Tile.entries, tile.boundary_foldl_join joints hnd]
  apply List.filter_congr
  intro id hid
  have hexit : id ∉ joints.map (·.exit) := by
    intro hm
    exact absurd (Tile.role_eq_of_mem_boundary hnd hid (h.exits.subset hm)) (by decide)
  simp only [Joint.mem_ends, hexit, false_or]

theorem exits_join_between (h : Joint.Fit joints tile) (hnd : tile.locationIds.Nodup)
    {before behind : List String}
    (hexits : tile.exits = before ++ (joints.map (·.exit) ++ behind)) :
    (joints.foldl Tile.join tile).exits = before ++ behind := by
  have hexits_nd : tile.exits.Nodup := hnd.sublist (tile.boundary_sublist .exit)
  rw [h.exits_join hnd, hexits]
  exact filter_notMem_between (hexits ▸ hexits_nd)

theorem entries_join_between (h : Joint.Fit joints tile) (hnd : tile.locationIds.Nodup)
    {before behind : List String}
    (hentries : tile.entries = before ++ (joints.map (·.entry) ++ behind)) :
    (joints.foldl Tile.join tile).entries = before ++ behind := by
  have hentries_nd : tile.entries.Nodup := hnd.sublist (tile.boundary_sublist .entry)
  rw [h.entries_join hnd, hentries]
  exact filter_notMem_between (hentries ▸ hentries_nd)

end Joint.Fit

end Tilework
