import Tilework.Proofs.Merge

/-!
# One application of an operator

An operator takes tiles whose boundaries have the right sizes, and refuses all others before it
feeds any label. The merged tile holds the locations and transitions of its parts in their order and
one edge for each pair of joined ends. Ends that are joined leave the boundary. All other entries
and exits stay in it, those of an earlier part before those of a later one.
-/

namespace Tilework

namespace Operator

/-- The boundaries of tiles have the sizes that an operator takes. -/
def Fits : Operator → List Tile → Prop
  | sizeMatched, [left, right] => left.exits.length = right.entries.length
  | singleEdge, [left, right] => 1 ≤ left.exits.length ∧ 1 ≤ right.entries.length
  | fanOut, [root, first, second] =>
    root.exits.length = 2 ∧ first.entries.length = 1 ∧ second.entries.length = 1
  | _, _ => False

/-- The entries that tiles have left when an operator has joined them. -/
def entries : Operator → List Tile → List String
  | sizeMatched, [left, _] => left.entries
  | singleEdge, [left, right] => left.entries ++ right.entries.tail
  | fanOut, [root, _, _] => root.entries
  | _, _ => []

/-- The exits that tiles have left when an operator has joined them. -/
def exits : Operator → List Tile → List String
  | sizeMatched, [_, right] => right.exits
  | singleEdge, [left, right] => left.exits.tail ++ right.exits
  | fanOut, [_, first, second] => first.exits ++ second.exits
  | _, _ => []

variable {op : Operator} {tiles : List Tile} {joints : List Joint}

theorem Planned.fits (h : Planned op tiles joints) : op.Fits tiles := by
  cases h with
  | sizeMatched hexits hentries => simp [Fits, ← hexits, ← hentries]
  | singleEdge hexits hentries => simp [Fits, hexits, hentries]
  | fanOut hexits hfirst hsecond => simp [Fits, hexits, hfirst, hsecond]

theorem exists_joints_of_fits (h : op.Fits tiles) :
    ∃ joints, op.joints? tiles = some (.ok joints) := by
  unfold Fits at h
  split at h
  · next left right =>
    exact ⟨_, congrArg some (if_pos h)⟩
  · next left right =>
    obtain ⟨exit, exits, hexits⟩ := List.exists_cons_of_length_pos h.1
    obtain ⟨entry, entries, hentries⟩ := List.exists_cons_of_length_pos h.2
    refine ⟨[⟨exit, entry⟩], ?_⟩
    simp [joints?, joinFirst, hexits, hentries]
  · next root first second =>
    obtain ⟨exit, exit', hexits⟩ := List.length_eq_two.mp h.1
    obtain ⟨entry, hfirst⟩ := List.length_eq_one_iff.mp h.2.1
    obtain ⟨entry', hsecond⟩ := List.length_eq_one_iff.mp h.2.2
    refine ⟨[⟨exit, entry⟩, ⟨exit', entry'⟩], ?_⟩
    simp [joints?, joinBranches, branchEntry, hexits, hfirst, hsecond, bind, Except.bind, pure,
      Except.pure]
  · exact h.elim

theorem unite?_eq_none_iff_not_fits : op.unite? tiles = none ↔ ¬ op.Fits tiles := by
  rw [unite?_eq_none_iff, ← not_exists, not_iff_not]
  constructor
  · rintro ⟨joints, h⟩
    exact (planned_of_joints? h).fits
  · exact exists_joints_of_fits

theorem Planned.entries_merge (h : Planned op tiles joints)
    (hnd : (op.absorbAll tiles).locationIds.Nodup) :
    (op.merge tiles joints).entries = op.entries tiles := by
  have hparts : (op.absorbAll tiles).entries = tiles.flatMap Tile.entries :=
    boundary_absorbAll op tiles .entry
  rw [merge]
  have hfit := h.fit
  cases h with
  | @sizeMatched left right _ hexits hentries =>
    have hsplit : (absorbAll .sizeMatched [left, right]).entries =
        left.entries ++ (joints.map (·.entry) ++ []) := by
      simp [hparts, hentries]
    rw [hfit.entries_join_between hnd hsplit, List.append_nil]
    rfl
  | @singleEdge left right exit entry exits entries hexits hentries =>
    have hsplit : (absorbAll .singleEdge [left, right]).entries =
        left.entries ++ ([entry] ++ entries) := by
      simp [hparts, hentries]
    rw [hfit.entries_join_between hnd hsplit, Operator.entries, hentries, List.tail_cons]
  | @fanOut root first second exit exit' entry entry' hexits hfirst hsecond =>
    have hsplit : (absorbAll .fanOut [root, first, second]).entries =
        root.entries ++ ([entry, entry'] ++ []) := by
      simp [hparts, hfirst, hsecond]
    rw [hfit.entries_join_between hnd hsplit, List.append_nil]
    rfl

theorem Planned.exits_merge (h : Planned op tiles joints)
    (hnd : (op.absorbAll tiles).locationIds.Nodup) :
    (op.merge tiles joints).exits = op.exits tiles := by
  have hparts : (op.absorbAll tiles).exits = tiles.flatMap Tile.exits :=
    boundary_absorbAll op tiles .exit
  rw [merge]
  have hfit := h.fit
  cases h with
  | @sizeMatched left right _ hexits hentries =>
    have hsplit : (absorbAll .sizeMatched [left, right]).exits =
        [] ++ (joints.map (·.exit) ++ right.exits) := by
      simp [hparts, hexits]
    rw [hfit.exits_join_between hnd hsplit]
    rfl
  | @singleEdge left right exit entry exits entries hexits hentries =>
    have hsplit : (absorbAll .singleEdge [left, right]).exits =
        [] ++ ([exit] ++ (exits ++ right.exits)) := by
      simp [hparts, hexits]
    rw [hfit.exits_join_between hnd hsplit, Operator.exits, hexits, List.tail_cons, List.nil_append]
  | @fanOut root first second exit exit' entry entry' hexits hfirst hsecond =>
    have hsplit : (absorbAll .fanOut [root, first, second]).exits =
        [] ++ ([exit, exit'] ++ (first.exits ++ second.exits)) := by
      simp [hparts, hexits]
    rw [hfit.exits_join_between hnd hsplit]
    rfl

/-- What the location of an id wants set up, as assignments. -/
def setup? (locations : List Location) (id : String) : Option String :=
  (locations.find? (·.id = id)).bind fun l => l.comment.bind normalizeAssignment

/-- The edge of a joint, between tiles with the given locations. -/
def edge (locations : List Location) (joint : Joint) : Transition where
  id := joint.exit ++ "->" ++ joint.entry
  source := joint.exit
  target := joint.entry
  assignment := setup? locations joint.entry

theorem edge_absorbAll (op : Operator) (tiles : List Tile) (joint : Joint) :
    joint.edge (op.absorbAll tiles) = edge (tiles.flatMap (·.locations)) joint := by
  rw [Joint.edge_eq, Tile.comment?, Tile.location?, locations_absorbAll, Option.bind_assoc]
  rfl

/-- An operator applies to tiles with distinct ids and readable labels exactly when their boundaries
fit it; all labels are fed then. The merged tile has their locations in order, of which the joined
ends have lost their role, and their transitions in order, behind which stands an edge for each
joint. When boundaries do not fit, no label has been fed. -/
theorem apply_joins (hlength : tiles.length = op.arity)
    (hnd : (tiles.flatMap (·.locationIds)).Nodup)
    (hreadable : ∀ tile ∈ tiles, ∀ label ∈ tile.parameterBounds, Bound.Readable label)
    (tracker : BoundTracker) :
    match op.apply tiles tracker with
    | (.ok merged, after) =>
      op.Fits tiles ∧ tracker.addAll (tiles.filterMap (·.parameterBounds)) = (.ok (), after) ∧
        merged.entries = op.entries tiles ∧ merged.exits = op.exits tiles ∧
        ∃ joints, Planned op tiles joints ∧
          merged.locations = (tiles.flatMap (·.locations)).map (·.release (Joint.ends joints)) ∧
          merged.transitions =
            tiles.flatMap (·.transitions) ++ joints.map (edge (tiles.flatMap (·.locations)))
    | (.error fault, after) =>
      ¬ op.Fits tiles ∧ after = tracker ∧ ∃ detail, fault = .mismatch op detail := by
  have habsorb : (op.absorbAll tiles).locationIds.Nodup := by rwa [locationIds_absorbAll]
  cases hunite : op.unite? tiles with
  | none =>
    obtain ⟨detail, happly⟩ := apply_of_unite?_eq_none hlength hunite tracker
    rw [happly]
    exact ⟨unite?_eq_none_iff_not_fits.mp hunite, rfl, detail, rfl⟩
  | some merged =>
    have hlabels : ∀ label ∈ tiles.filterMap (·.parameterBounds), Bound.Readable label := by
      intro label hlabel
      obtain ⟨tile, htile, hbounds⟩ := List.mem_filterMap.mp hlabel
      exact hreadable tile htile label hbounds
    obtain ⟨after, hfed⟩ := BoundTracker.exists_addAll hlabels tracker
    rw [apply_eq_ok_iff.mpr ⟨hunite, hfed⟩]
    obtain ⟨hplanned, rfl⟩ := unite?_eq_some hunite
    refine ⟨hplanned.fits, hfed, hplanned.entries_merge habsorb, hplanned.exits_merge habsorb, _,
      hplanned, ?_, ?_⟩
    · rw [merge, Tile.locations_foldl_join, foldl_clearRole habsorb, locations_absorbAll]
    · rw [transitions_merge]
      simp only [edge_absorbAll]

def forkTile : Tile where
  name := "fork"
  declaration := "int n;"
  parameterBounds := some "0:5|8:inf"
  locations := [{ id := "f", role := some .entry }, { id := "x", role := some .exit },
    { id := "y", role := some .exit }]

def meetTile : Tile where
  name := "meet"
  declaration := " "
  locations := [{ id := "p", comment := some "n = 0", role := some .entry },
    { id := "q", role := some .entry }, { id := "r", role := some .exit }]

/-- Of two exits and two entries, the first ones are joined. -/
theorem apply_joins_fork :
    (([forkTile, meetTile].flatMap (·.locationIds)).Nodup ∧
      Bound.Readable "0:5|8:inf") ∧
    ∃ merged after, singleEdge.apply [forkTile, meetTile] {} = (.ok merged, after) ∧
      merged.entries = ["f", "q"] ∧ merged.exits = ["y", "r"] := by
  have hnd : ([forkTile, meetTile].flatMap (·.locationIds)).Nodup := by decide
  have hlabel : Bound.Readable "0:5|8:inf" := ⟨_, rfl⟩
  have hreadable : ∀ tile ∈ [forkTile, meetTile], ∀ label ∈ tile.parameterBounds,
      Bound.Readable label := by
    intro tile htile label hbounds
    rcases List.mem_pair.mp htile with rfl | rfl
    · cases hbounds
      exact hlabel
    · cases hbounds
  have hlength : [forkTile, meetTile].length = singleEdge.arity := rfl
  have hjoins := apply_joins hlength hnd hreadable {}
  have hfits : singleEdge.Fits [forkTile, meetTile] := ⟨by decide, by decide⟩
  refine ⟨⟨hnd, hlabel⟩, ?_⟩
  rcases happly : singleEdge.apply [forkTile, meetTile] {} with ⟨fault | merged, after⟩
  · rw [happly] at hjoins
    exact absurd hfits hjoins.1
  · rw [happly] at hjoins
    obtain ⟨-, -, hentries, hexits, -⟩ := hjoins
    exact ⟨merged, after, rfl, hentries, hexits⟩

end Operator

end Tilework
