import Mathlib.Data.List.Nodup
import Tilework.Proofs.Joint
import Tilework.Proofs.Sequencing

/-!
# Merging tiles

A merged tile holds what its parts hold, in their order, and then the edges of its joints. The
joints that an operator plans fit its parts. `Operator.unite?` is the merged tile without its bound
labels; applying an operator succeeds when the parts can be united and their labels can be read.
-/

namespace Tilework

theorem Tile.foldl_absorb {α : Type} {f : Tile → List α}
    (hf : ∀ a b : Tile, f (a.absorb b) = f a ++ f b) (tiles : List Tile) (tile : Tile) :
    f (tiles.foldl Tile.absorb tile) = f tile ++ tiles.flatMap f := by
  induction tiles generalizing tile with
  | nil => simp
  | cons t tiles ih => rw [List.foldl_cons, ih, hf, List.flatMap_cons, List.append_assoc]

namespace Operator

section merge

variable (op : Operator) (tiles : List Tile) (joints : List Joint)

@[simp] theorem locations_absorbAll :
    (op.absorbAll tiles).locations = tiles.flatMap (·.locations) :=
  Tile.foldl_absorb Tile.locations_absorb tiles _

@[simp] theorem transitions_absorbAll :
    (op.absorbAll tiles).transitions = tiles.flatMap (·.transitions) :=
  Tile.foldl_absorb Tile.transitions_absorb tiles _

@[simp] theorem locationIds_absorbAll :
    (op.absorbAll tiles).locationIds = tiles.flatMap (·.locationIds) := by
  simp [Tile.locationIds, List.map_flatMap]

@[simp] theorem boundary_absorbAll (role : Role) :
    (op.absorbAll tiles).boundary role = tiles.flatMap (·.boundary role) := by
  simp [Tile.boundary, List.filter_flatMap, List.map_flatMap]

@[simp] theorem name_merge :
    (op.merge tiles joints).name = op.compositeName (tiles.map (·.name)) := by
  rw [merge, Tile.name_foldl_join]
  exact foldl_keeps Tile.name Tile.absorb (fun _ _ => rfl) tiles _

@[simp] theorem parameterBounds_merge : (op.merge tiles joints).parameterBounds = none := by
  rw [merge, Tile.parameterBounds_foldl_join]
  exact foldl_keeps Tile.parameterBounds Tile.absorb (fun _ _ => rfl) tiles _

@[simp] theorem locationIds_merge :
    (op.merge tiles joints).locationIds = tiles.flatMap (·.locationIds) := by
  simp [merge]

theorem transitions_merge :
    (op.merge tiles joints).transitions =
      tiles.flatMap (·.transitions) ++ joints.map (·.edge (op.absorbAll tiles)) := by
  simp [merge, Tile.transitions_foldl_join]

end merge

theorem joinAll_eq_ok {left right : Tile} {joints : List Joint}
    (h : joinAll left right = .ok joints) :
    joints.map (·.exit) = left.exits ∧ joints.map (·.entry) = right.entries := by
  rw [joinAll] at h
  split at h
  · next hlen =>
    cases h
    rw [← List.map_uncurry_zip_eq_zipWith, List.map_map, List.map_map]
    exact ⟨List.map_fst_zip (Nat.le_of_eq hlen), List.map_snd_zip (Nat.le_of_eq hlen.symm)⟩
  · cases h

theorem joinFirst_eq_ok {left right : Tile} {joints : List Joint}
    (h : joinFirst left right = .ok joints) :
    ∃ exit exits entry entries, left.exits = exit :: exits ∧ right.entries = entry :: entries ∧
      joints = [⟨exit, entry⟩] := by
  rw [joinFirst] at h
  split at h
  · next exit exits entry entries hl hr =>
    cases h
    exact ⟨exit, exits, entry, entries, hl, hr, rfl⟩
  · cases h
  · cases h

theorem branchEntry_eq_ok {branch : Tile} {entry : String} (h : branchEntry branch = .ok entry) :
    branch.entries = [entry] := by
  rw [branchEntry] at h
  split at h
  · next e he =>
    cases h
    exact he
  · cases h

theorem joinBranches_eq_ok {root first second : Tile} {joints : List Joint}
    (h : joinBranches root first second = .ok joints) :
    ∃ exit exit' entry entry', root.exits = [exit, exit'] ∧ first.entries = [entry] ∧
      second.entries = [entry'] ∧ joints = [⟨exit, entry⟩, ⟨exit', entry'⟩] := by
  rw [joinBranches] at h
  split at h
  · next exit exit' hr =>
    obtain ⟨entry, hf, h⟩ := bind_eq_ok_iff.mp h
    obtain ⟨entry', hs, h⟩ := bind_eq_ok_iff.mp h
    cases h
    exact ⟨exit, exit', entry, entry', hr, branchEntry_eq_ok hf, branchEntry_eq_ok hs, rfl⟩
  · cases h

/-- What the joints of an operator join, by the operator. -/
inductive Planned : Operator → List Tile → List Joint → Prop
  | sizeMatched {left right : Tile} {joints : List Joint}
      (exits : joints.map (·.exit) = left.exits) (entries : joints.map (·.entry) = right.entries) :
      Planned .sizeMatched [left, right] joints
  | singleEdge {left right : Tile} {exit entry : String} {exits entries : List String}
      (hexits : left.exits = exit :: exits) (hentries : right.entries = entry :: entries) :
      Planned .singleEdge [left, right] [⟨exit, entry⟩]
  | fanOut {root first second : Tile} {exit exit' entry entry' : String}
      (hexits : root.exits = [exit, exit']) (hfirst : first.entries = [entry])
      (hsecond : second.entries = [entry']) :
      Planned .fanOut [root, first, second] [⟨exit, entry⟩, ⟨exit', entry'⟩]

theorem planned_of_joints? {op : Operator} {tiles : List Tile} {joints : List Joint}
    (h : op.joints? tiles = some (.ok joints)) : Planned op tiles joints := by
  unfold joints? at h
  split at h
  · next left right =>
    obtain ⟨hexits, hentries⟩ := joinAll_eq_ok (Option.some.inj h)
    exact .sizeMatched hexits hentries
  · next left right =>
    obtain ⟨exit, exits, entry, entries, hexits, hentries, rfl⟩ :=
      joinFirst_eq_ok (Option.some.inj h)
    exact .singleEdge hexits hentries
  · next root first second =>
    obtain ⟨exit, exit', entry, entry', hexits, hfirst, hsecond, rfl⟩ :=
      joinBranches_eq_ok (Option.some.inj h)
    exact .fanOut hexits hfirst hsecond
  · cases h

theorem Planned.fit {op : Operator} {tiles : List Tile} {joints : List Joint}
    (h : Planned op tiles joints) : Joint.Fit joints (op.absorbAll tiles) := by
  constructor
  · rw [Tile.exits, boundary_absorbAll]
    change List.Sublist _ (tiles.flatMap Tile.exits)
    cases h with
    | sizeMatched hexits hentries => simp [hexits]
    | singleEdge hexits hentries => simp [hexits]
    | fanOut hexits hfirst hsecond => simp [hexits]
  · rw [Tile.entries, boundary_absorbAll]
    change List.Sublist _ (tiles.flatMap Tile.entries)
    cases h with
    | sizeMatched hexits hentries => simp [hentries]
    | singleEdge hexits hentries => simp [hentries]
    | fanOut hexits hfirst hsecond => simp [hfirst, hsecond]

/-- The joints of an operator, none where the boundaries do not fit. -/
def planned (op : Operator) (tiles : List Tile) : List Joint :=
  match op.joints? tiles with
  | some (.ok joints) => joints
  | _ => []

/-- The parts of an operator in one tile, if their boundaries fit. -/
def unite? (op : Operator) (tiles : List Tile) : Option Tile :=
  match op.joints? tiles with
  | some (.ok joints) => some (op.merge tiles joints)
  | _ => none

theorem unite?_eq_some {op : Operator} {tiles : List Tile} {tile : Tile}
    (h : op.unite? tiles = some tile) :
    Planned op tiles (op.planned tiles) ∧ tile = op.merge tiles (op.planned tiles) := by
  rw [unite?] at h
  split at h
  · next joints hj =>
    have hp : op.planned tiles = joints := by simp [planned, hj]
    rw [hp]
    exact ⟨planned_of_joints? hj, (Option.some.inj h).symm⟩
  · cases h

theorem unite?_eq_none_iff {op : Operator} {tiles : List Tile} :
    op.unite? tiles = none ↔ ∀ joints, op.joints? tiles ≠ some (.ok joints) := by
  unfold unite?
  constructor
  · intro h joints hj
    rw [hj] at h
    cases h
  · intro h
    split
    · next joints hj => exact absurd hj (h joints)
    · rfl

end Operator

theorem BoundTracker.addAll_append (xs ys : List String) (tracker : BoundTracker) :
    tracker.addAll (xs ++ ys) =
      (tracker.addAll xs).andThen fun () tracker => tracker.addAll ys := by
  induction xs generalizing tracker with
  | nil => rfl
  | cons x xs ih =>
    rw [List.cons_append, addAll, addAll]
    cases tracker.add x with
    | ok tracker => exact ih tracker
    | error fault => rfl

theorem BoundTracker.addAll_eq_error {labels : List String} {fault : ComposeFault}
    {tracker tracker' : BoundTracker} (h : tracker.addAll labels = (.error fault, tracker')) :
    ∃ cause, fault = .label cause := by
  induction labels generalizing tracker with
  | nil => cases h
  | cons label labels ih =>
    rw [addAll] at h
    split at h
    · exact ih h
    · next cause hadd =>
      cases h
      exact ⟨cause, rfl⟩

/-- A label whose intervals can all be read. -/
def Bound.Readable (label : String) : Prop := ∃ intervals, Bound.readLabel label = .ok intervals

theorem BoundTracker.exists_addAll {labels : List String}
    (h : ∀ label ∈ labels, Bound.Readable label) (tracker : BoundTracker) :
    ∃ tracker', tracker.addAll labels = (.ok (), tracker') := by
  induction labels generalizing tracker with
  | nil => exact ⟨tracker, rfl⟩
  | cons label labels ih =>
    obtain ⟨intervals, hread⟩ := h label (by simp)
    have hadd : tracker.add label =
        .ok { tracker with current := combine tracker.current intervals } := by
      rw [add, hread]
      rfl
    obtain ⟨tracker', hrest⟩ := ih (fun l hl => h l (by simp [hl]))
      { tracker with current := combine tracker.current intervals }
    exact ⟨tracker', by rw [addAll, hadd]; exact hrest⟩

theorem Operator.apply_eq_ok_iff {op : Operator} {tiles : List Tile} {tile : Tile}
    {tracker tracker' : BoundTracker} :
    op.apply tiles tracker = (.ok tile, tracker') ↔
      op.unite? tiles = some tile ∧
        tracker.addAll (tiles.filterMap (·.parameterBounds)) = (.ok (), tracker') := by
  rw [apply, unite?]
  cases op.joints? tiles with
  | none => simp
  | some result =>
    cases result with
    | error detail => simp
    | ok joints =>
      cases hadd : tracker.addAll (tiles.filterMap (·.parameterBounds)) with
      | mk result tracker => cases result <;> simp

theorem Operator.apply_of_unite?_eq_none {op : Operator} {tiles : List Tile}
    (hlength : tiles.length = op.arity) (h : op.unite? tiles = none) (tracker : BoundTracker) :
    ∃ detail, op.apply tiles tracker = (.error (.mismatch op detail), tracker) := by
  rw [apply]
  cases hjoints : op.joints? tiles with
  | none => exact absurd hlength ((op.joints?_eq_none_iff tiles).mp hjoints)
  | some result =>
    cases result with
    | error detail => exact ⟨detail, rfl⟩
    | ok joints => exact absurd hjoints (unite?_eq_none_iff.mp h joints)

end Tilework
