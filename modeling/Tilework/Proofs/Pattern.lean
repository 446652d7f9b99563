import Tilework.Proofs.Merge

/-!
# Patterns

A pattern is a tile whose ids are not numbered yet. In place of a namespace, every id has the place
of its instance among the tiles that its run has loaded, in 32 bits as namespaces are. Stamping adds
the number of the first of them. Marks are stamped alike only if they are the same, so no look-up
sees the numbers: operators do the same to patterns, whatever number they are stamped from.
-/

namespace Tilework

/-- A location id of the `nth` loaded tile. -/
structure Mark where
  nth : UInt32
  id : String
deriving DecidableEq, Repr

def Mark.stamp (first : UInt32) (mark : Mark) : String := stampId (first + mark.nth).toNat mark.id

theorem Mark.stamp_inj {first : UInt32} {a b : Mark} : a.stamp first = b.stamp first ↔ a = b := by
  rcases a with ⟨n, x⟩
  rcases b with ⟨m, y⟩
  rw [stamp, stamp, stampId_inj, UInt32.toNat_inj, UInt32.add_right_inj, Mark.mk.injEq]

def Joint.ofMarks (first : UInt32) (marks : Mark × Mark) : Joint :=
  ⟨marks.1.stamp first, marks.2.stamp first⟩

/-- A location of the `nth` loaded tile. -/
structure Place where
  nth : UInt32
  location : Location
deriving DecidableEq, Repr

namespace Place

def mark (place : Place) : Mark := ⟨place.nth, place.location.id⟩

def stamp (first : UInt32) (place : Place) : Location :=
  place.location.stamp (first + place.nth).toNat

@[simp] theorem id_stamp (first : UInt32) (place : Place) :
    (place.stamp first).id = place.mark.stamp first := rfl

def clearRole : List Place → Mark → List Place
  | [], _ => []
  | place :: places, mark =>
    if place.mark = mark then
      { place with location := { place.location with role := none } } :: places
    else place :: clearRole places mark

end Place

/-- A transition of the `nth` loaded tile, or the edge of a joint. -/
inductive Link where
  | loaded (nth : UInt32) (t : Transition)
  | joining (exit entry : Mark) (assignment : Option String)
deriving DecidableEq, Repr

def Link.stamp (first : UInt32) : Link → Transition
  | loaded nth t => t.stamp (first + nth).toNat
  | joining exit entry assignment => {
      id := exit.stamp first ++ "->" ++ entry.stamp first
      source := exit.stamp first
      target := entry.stamp first
      assignment }

structure Pattern where
  name : String := ""
  declaration : String := ""
  parameterBounds : Option String := none
  places : List Place := []
  links : List Link := []
deriving DecidableEq, Repr

namespace Pattern

/-- The tile of a pattern in a run whose first tile gets the given number. -/
def stamp (first : UInt32) (pattern : Pattern) : Tile where
  name := pattern.name
  declaration := pattern.declaration
  parameterBounds := pattern.parameterBounds
  locations := pattern.places.map (·.stamp first)
  transitions := pattern.links.map (·.stamp first)

/-- The pattern of the `nth` loaded tile. -/
def ofTile (nth : UInt32) (tile : Tile) : Pattern where
  name := tile.name
  declaration := tile.declaration
  parameterBounds := tile.parameterBounds
  places := tile.locations.map (⟨nth, ·⟩)
  links := tile.transitions.map (.loaded nth)

theorem stamp_ofTile (first nth : UInt32) (tile : Tile) :
    (ofTile nth tile).stamp first = tile.stamp (first + nth).toNat := by
  simp [ofTile, stamp, Tile.stamp, Place.stamp, Link.stamp, Function.comp_def]

def boundary (pattern : Pattern) (role : Role) : List Mark :=
  (pattern.places.filter (·.location.role = some role)).map (·.mark)

def exits (pattern : Pattern) : List Mark := pattern.boundary .exit

def entries (pattern : Pattern) : List Mark := pattern.boundary .entry

def comment? (pattern : Pattern) (mark : Mark) : Option String :=
  (pattern.places.find? (·.mark = mark)).bind (·.location.comment)

def absorb (pattern other : Pattern) : Pattern :=
  { pattern with
    declaration := joinDeclarations pattern.declaration other.declaration
    places := pattern.places ++ other.places
    links := pattern.links ++ other.links }

def join (pattern : Pattern) (joint : Mark × Mark) : Pattern :=
  { pattern with
    places := Place.clearRole (Place.clearRole pattern.places joint.1) joint.2
    links := pattern.links ++
      [.joining joint.1 joint.2 ((pattern.comment? joint.2).bind normalizeAssignment)] }

def absorbAll (op : Operator) (patterns : List Pattern) : Pattern :=
  patterns.foldl absorb { name := op.compositeName (patterns.map (·.name)) }

def merge (op : Operator) (patterns : List Pattern) (joints : List (Mark × Mark)) : Pattern :=
  joints.foldl join (absorbAll op patterns)

variable (first : UInt32) (pattern other : Pattern)

@[simp] theorem name_stamp : (pattern.stamp first).name = pattern.name := rfl

@[simp] theorem parameterBounds_stamp :
    (pattern.stamp first).parameterBounds = pattern.parameterBounds := rfl

theorem boundary_stamp (role : Role) :
    (pattern.stamp first).boundary role = (pattern.boundary role).map (·.stamp first) := by
  simp only [Tile.boundary, boundary, stamp, List.filter_map, List.map_map]
  rfl

@[simp] theorem exits_stamp : (pattern.stamp first).exits = pattern.exits.map (·.stamp first) :=
  pattern.boundary_stamp first .exit

@[simp] theorem entries_stamp :
    (pattern.stamp first).entries = pattern.entries.map (·.stamp first) :=
  pattern.boundary_stamp first .entry

theorem comment?_stamp (mark : Mark) :
    (pattern.stamp first).comment? (mark.stamp first) = pattern.comment? mark := by
  simp only [Tile.comment?, Tile.location?, comment?, stamp, List.find?_map, Function.comp_def,
    Place.id_stamp, Mark.stamp_inj]
  cases pattern.places.find? (·.mark = mark) <;> rfl

theorem clearRole_stamp (places : List Place) (mark : Mark) :
    clearRole (places.map (·.stamp first)) (mark.stamp first) =
      (Place.clearRole places mark).map (·.stamp first) := by
  induction places with
  | nil => rfl
  | cons place places ih =>
    rw [List.map_cons, clearRole, Place.clearRole, Place.id_stamp]
    by_cases h : place.mark = mark
    · rw [if_pos (congrArg _ h), if_pos h]
      rfl
    · rw [if_neg (mt Mark.stamp_inj.mp h), if_neg h, ih]
      rfl

theorem absorb_stamp :
    (pattern.stamp first).absorb (other.stamp first) = (pattern.absorb other).stamp first := by
  simp [Tile.absorb, absorb, stamp]

theorem join_stamp (joint : Mark × Mark) :
    (pattern.stamp first).join (.ofMarks first joint) = (pattern.join joint).stamp first := by
  simp only [Tile.join, Tile.clearRole, Joint.edge_eq, Joint.ofMarks, comment?_stamp]
  simp only [stamp, clearRole_stamp, join, List.map_append]
  rfl

theorem absorbAll_stamp (op : Operator) (patterns : List Pattern) :
    op.absorbAll (patterns.map (·.stamp first)) = (absorbAll op patterns).stamp first := by
  have hnames : (patterns.map (·.stamp first)).map (·.name) = patterns.map (·.name) := by
    simp [Function.comp_def]
  rw [Operator.absorbAll, hnames, List.foldl_map, absorbAll, ← List.foldl_hom (stamp first)]
  · rfl
  · exact fun p q => p.absorb_stamp first q

theorem merge_stamp (op : Operator) (patterns : List Pattern) (joints : List (Mark × Mark)) :
    op.merge (patterns.map (·.stamp first)) (joints.map (.ofMarks first)) =
      (merge op patterns joints).stamp first := by
  rw [Operator.merge, absorbAll_stamp, List.foldl_map]
  exact List.foldl_hom (stamp first) fun p joint => p.join_stamp first joint

theorem exists_joinAll (left right : Pattern) :
    ∃ planned : Except Mismatch (List (Mark × Mark)), ∀ first,
      joinAll (left.stamp first) (right.stamp first) = planned.map (List.map (.ofMarks first)) := by
  by_cases h : left.exits.length = right.entries.length
  · refine ⟨.ok (left.exits.zip right.entries), fun first => ?_⟩
    simp [joinAll, h, Except.map, List.zipWith_map, List.zip, List.map_zipWith, Joint.ofMarks]
  · refine ⟨.error (.sizes left.name left.exits.length right.name right.entries.length),
      fun first => ?_⟩
    simp [joinAll, h, Except.map]

theorem exists_joinFirst (left right : Pattern) :
    ∃ planned : Except Mismatch (List (Mark × Mark)), ∀ first,
      joinFirst (left.stamp first) (right.stamp first) =
        planned.map (List.map (.ofMarks first)) := by
  simp only [joinFirst, exits_stamp, entries_stamp, name_stamp]
  cases left.exits with
  | nil => exact ⟨.error (.noExit left.name), fun first => rfl⟩
  | cons exit exits =>
    cases right.entries with
    | nil => exact ⟨.error (.noEntry right.name), fun first => rfl⟩
    | cons entry entries => exact ⟨.ok [(exit, entry)], fun first => rfl⟩

theorem exists_branchEntry (branch : Pattern) :
    ∃ entry : Except Mismatch Mark, ∀ first,
      branchEntry (branch.stamp first) = entry.map (·.stamp first) := by
  simp only [branchEntry, entries_stamp, name_stamp]
  rcases branch.entries with _ | ⟨entry, _ | ⟨other, entries⟩⟩
  · exact ⟨.error (.branchEntries branch.name 0), fun first => rfl⟩
  · exact ⟨.ok entry, fun first => rfl⟩
  · refine ⟨.error (.branchEntries branch.name (entries.length + 2)), fun first => ?_⟩
    simp [Except.map]

theorem exists_joinBranches (root branch branch' : Pattern) :
    ∃ planned : Except Mismatch (List (Mark × Mark)), ∀ first,
      joinBranches (root.stamp first) (branch.stamp first) (branch'.stamp first) =
        planned.map (List.map (.ofMarks first)) := by
  obtain ⟨entry, hentry⟩ := branch.exists_branchEntry
  obtain ⟨entry', hentry'⟩ := branch'.exists_branchEntry
  simp only [joinBranches, exits_stamp, name_stamp, hentry, hentry']
  rcases root.exits with _ | ⟨exit, _ | ⟨exit', _ | ⟨other, exits⟩⟩⟩
  · exact ⟨.error (.rootExits root.name 0), fun first => rfl⟩
  · exact ⟨.error (.rootExits root.name 1), fun first => rfl⟩
  · cases entry with
    | error detail => exact ⟨.error detail, fun first => rfl⟩
    | ok entry =>
      cases entry' with
      | error detail => exact ⟨.error detail, fun first => rfl⟩
      | ok entry' => exact ⟨.ok [(exit, entry), (exit', entry')], fun first => rfl⟩
  · refine ⟨.error (.rootExits root.name (exits.length + 3)), fun first => ?_⟩
    simp [Except.map]

theorem exists_joints? (op : Operator) (patterns : List Pattern) :
    ∃ planned : Option (Except Mismatch (List (Mark × Mark))), ∀ first,
      op.joints? (patterns.map (·.stamp first)) =
        planned.map (Except.map (List.map (.ofMarks first))) := by
  by_cases hlength : patterns.length = op.arity
  · cases op with
    | sizeMatched =>
      obtain ⟨left, right, rfl⟩ := List.length_eq_two.mp hlength
      obtain ⟨planned, h⟩ := left.exists_joinAll right
      exact ⟨some planned, fun first => congrArg some (h first)⟩
    | singleEdge =>
      obtain ⟨left, right, rfl⟩ := List.length_eq_two.mp hlength
      obtain ⟨planned, h⟩ := left.exists_joinFirst right
      exact ⟨some planned, fun first => congrArg some (h first)⟩
    | fanOut =>
      obtain ⟨root, branch, branch', rfl⟩ := List.length_eq_three.mp hlength
      obtain ⟨planned, h⟩ := root.exists_joinBranches branch branch'
      exact ⟨some planned, fun first => congrArg some (h first)⟩
  · refine ⟨none, fun first => ?_⟩
    rw [Option.map_none, Operator.joints?_eq_none_iff, List.length_map]
    exact hlength

end Pattern

/-- The tile was loaded as the `nth` one, counting in 32 bits. -/
def LoadedAs (loaded : List Tile) (nth : UInt32) (tile : Tile) : Prop :=
  ∃ k, loaded[k]? = some tile ∧ nth = .ofNat k

/-- The mark is that of a location of a tile that was loaded at its place. -/
def Mark.DrawnFrom (loaded : List Tile) (mark : Mark) : Prop :=
  ∃ tile, LoadedAs loaded mark.nth tile ∧ mark.id ∈ tile.locationIds

def Link.DrawnFrom (loaded : List Tile) : Link → Prop
  | .loaded nth t => ∃ tile, LoadedAs loaded nth tile ∧ t ∈ tile.transitions
  | joining exit entry _ => exit.DrawnFrom loaded ∧ entry.DrawnFrom loaded

/-- All that a pattern holds belongs to loaded tiles. -/
structure Pattern.DrawnFrom (loaded : List Tile) (pattern : Pattern) : Prop where
  places : ∀ mark ∈ pattern.places.map (·.mark), mark.DrawnFrom loaded
  links : ∀ link ∈ pattern.links, link.DrawnFrom loaded

theorem exists_loadedAs_append {loaded : List Tile} {nth : UInt32} {P : Tile → Prop}
    (h : ∃ tile, LoadedAs loaded nth tile ∧ P tile) (more : Tile) :
    ∃ tile, LoadedAs (loaded ++ [more]) nth tile ∧ P tile := by
  obtain ⟨tile, ⟨k, htile, hnth⟩, hP⟩ := h
  obtain ⟨hlt, -⟩ := List.getElem?_eq_some_iff.mp htile
  exact ⟨tile, ⟨k, by rw [List.getElem?_append_left hlt, htile], hnth⟩, hP⟩

namespace Pattern

theorem map_mark_clearRole (places : List Place) (mark : Mark) :
    (Place.clearRole places mark).map (·.mark) = places.map (·.mark) := by
  induction places with
  | nil => rfl
  | cons place places ih =>
    rw [Place.clearRole]
    split
    · rfl
    · rw [List.map_cons, List.map_cons, ih]

theorem drawnFrom_ofTile (loaded : List Tile) (tile : Tile) :
    (ofTile (.ofNat loaded.length) tile).DrawnFrom (loaded ++ [tile]) := by
  have hlast : LoadedAs (loaded ++ [tile]) (.ofNat loaded.length) tile :=
    ⟨loaded.length, by simp, rfl⟩
  constructor
  · intro mark hmark
    obtain ⟨place, hplace, rfl⟩ := List.mem_map.mp hmark
    obtain ⟨l, hl, rfl⟩ := List.mem_map.mp hplace
    exact ⟨tile, hlast, List.mem_map_of_mem hl⟩
  · intro link hlink
    obtain ⟨t, ht, rfl⟩ := List.mem_map.mp hlink
    exact ⟨tile, hlast, ht⟩

variable {loaded : List Tile} {pattern other : Pattern} {joint : Mark × Mark}

theorem DrawnFrom.more (h : pattern.DrawnFrom loaded) (tile : Tile) :
    pattern.DrawnFrom (loaded ++ [tile]) where
  places := fun mark hmark => exists_loadedAs_append (h.places mark hmark) tile
  links := by
    intro link hlink
    have hdrawn := h.links link hlink
    cases link with
    | loaded nth t => exact exists_loadedAs_append hdrawn tile
    | joining exit entry assignment =>
      exact ⟨exists_loadedAs_append hdrawn.1 tile, exists_loadedAs_append hdrawn.2 tile⟩

theorem DrawnFrom.absorb (h : pattern.DrawnFrom loaded) (hother : other.DrawnFrom loaded) :
    (pattern.absorb other).DrawnFrom loaded where
  places := by
    intro mark hmark
    rw [Pattern.absorb, List.map_append] at hmark
    exact (List.mem_append.mp hmark).elim (h.places mark) (hother.places mark)
  links := fun link hlink => (List.mem_append.mp hlink).elim (h.links link) (hother.links link)

theorem DrawnFrom.join (h : pattern.DrawnFrom loaded) (hexit : joint.1.DrawnFrom loaded)
    (hentry : joint.2.DrawnFrom loaded) : (pattern.join joint).DrawnFrom loaded where
  places := by
    rw [Pattern.join, map_mark_clearRole, map_mark_clearRole]
    exact h.places
  links := by
    intro link hlink
    rcases List.mem_append.mp hlink with hlink | hlink
    · exact h.links link hlink
    · obtain rfl := List.mem_singleton.mp hlink
      exact ⟨hexit, hentry⟩

theorem DrawnFrom.foldl_absorb {patterns : List Pattern} (h : pattern.DrawnFrom loaded)
    (hpatterns : ∀ p ∈ patterns, p.DrawnFrom loaded) :
    (patterns.foldl Pattern.absorb pattern).DrawnFrom loaded := by
  induction patterns generalizing pattern with
  | nil => exact h
  | cons p patterns ih =>
    exact ih (h.absorb (hpatterns p (by simp))) fun q hq => hpatterns q (by simp [hq])

theorem DrawnFrom.foldl_join {joints : List (Mark × Mark)} (h : pattern.DrawnFrom loaded)
    (hjoints : ∀ joint ∈ joints, joint.1.DrawnFrom loaded ∧ joint.2.DrawnFrom loaded) :
    (joints.foldl Pattern.join pattern).DrawnFrom loaded := by
  induction joints generalizing pattern with
  | nil => exact h
  | cons joint joints ih =>
    obtain ⟨hexit, hentry⟩ := hjoints joint (by simp)
    exact ih (h.join hexit hentry) fun j hj => hjoints j (by simp [hj])

theorem DrawnFrom.merge {op : Operator} {patterns : List Pattern} {joints : List (Mark × Mark)}
    (hpatterns : ∀ p ∈ patterns, p.DrawnFrom loaded)
    (hjoints : ∀ joint ∈ joints, joint.1.DrawnFrom loaded ∧ joint.2.DrawnFrom loaded) :
    (merge op patterns joints).DrawnFrom loaded := by
  refine DrawnFrom.foldl_join (DrawnFrom.foldl_absorb ?_ hpatterns) hjoints
  exact ⟨by simp, by simp⟩

theorem drawnFrom_of_mem_boundary {patterns : List Pattern}
    (hpatterns : ∀ p ∈ patterns, p.DrawnFrom loaded) {role : Role} {mark : Mark}
    {first : UInt32} {op : Operator}
    (h : mark.stamp first ∈ (op.absorbAll (patterns.map (·.stamp first))).boundary role) :
    mark.DrawnFrom loaded := by
  rw [absorbAll_stamp, boundary_stamp] at h
  obtain ⟨mark', hmark, heq⟩ := List.mem_map.mp h
  obtain rfl := Mark.stamp_inj.mp heq
  obtain ⟨place, hplace, rfl⟩ := List.mem_map.mp hmark
  have hdrawn : (absorbAll op patterns).DrawnFrom loaded :=
    DrawnFrom.foldl_absorb ⟨by simp, by simp⟩ hpatterns
  exact hdrawn.places _ (List.mem_map_of_mem (List.mem_of_mem_filter hplace))

theorem drawnFrom_of_planned {op : Operator} {patterns : List Pattern}
    {joints : List (Mark × Mark)} (hpatterns : ∀ p ∈ patterns, p.DrawnFrom loaded) {first : UInt32}
    (h : op.joints? (patterns.map (·.stamp first)) = some (.ok (joints.map (.ofMarks first)))) :
    ∀ joint ∈ joints, joint.1.DrawnFrom loaded ∧ joint.2.DrawnFrom loaded := by
  have hfit := (Operator.planned_of_joints? h).fit
  intro joint hjoint
  have hmem : Joint.ofMarks first joint ∈ joints.map (.ofMarks first) := List.mem_map_of_mem hjoint
  exact ⟨drawnFrom_of_mem_boundary hpatterns (hfit.exits.subset (List.mem_map_of_mem hmem)),
    drawnFrom_of_mem_boundary hpatterns (hfit.entries.subset (List.mem_map_of_mem hmem))⟩

theorem exists_apply (op : Operator) (patterns : List Pattern) (tracker : BoundTracker) :
    ∃ (outcome : Except ComposeFault Pattern) (tracker' : BoundTracker),
      (∀ first, op.apply (patterns.map (·.stamp first)) tracker =
        (outcome.map (·.stamp first), tracker')) ∧
      ∀ loaded, (∀ p ∈ patterns, p.DrawnFrom loaded) →
        ∀ pattern, outcome = .ok pattern → pattern.DrawnFrom loaded := by
  obtain ⟨planned, hplanned⟩ := exists_joints? op patterns
  have hlabels (first : UInt32) : (patterns.map (·.stamp first)).filterMap (·.parameterBounds) =
      patterns.filterMap (·.parameterBounds) := by
    rw [List.filterMap_map]
    rfl
  rcases planned with _ | detail | joints
  · refine ⟨.error (.underflow op patterns.length), tracker, fun first => ?_, by simp⟩
    rw [Operator.apply, hplanned, ← patterns.length_map (·.stamp first)]
    rfl
  · refine ⟨.error (.mismatch op detail), tracker, fun first => ?_, by simp⟩
    rw [Operator.apply, hplanned]
    rfl
  · have happly (first : UInt32) : op.apply (patterns.map (·.stamp first)) tracker =
        (tracker.addAll (patterns.filterMap (·.parameterBounds))).andThen fun () tracker =>
          (.ok ((merge op patterns joints).stamp first), tracker) := by
      rw [Operator.apply, hplanned, hlabels, ← merge_stamp]
      rfl
    rcases hadd : tracker.addAll (patterns.filterMap (·.parameterBounds)) with ⟨fault | u, tracker'⟩
    · refine ⟨.error fault, tracker', fun first => ?_, by simp⟩
      rw [happly, hadd]
      rfl
    · refine ⟨.ok (merge op patterns joints), tracker', fun first => ?_, ?_⟩
      · rw [happly, hadd]
        rfl
      · intro loaded hdrawn pattern hpattern
        cases hpattern
        exact DrawnFrom.merge hdrawn (drawnFrom_of_planned hdrawn (hplanned 0))

end Pattern

end Tilework
