import Tilework.Proofs.WellFormed

/-!
# The first defect of a tile

Whether a location or a transition is defective depends on those before it. The check of a tile
reports the defect of the first location that has one, and where locations have none, that of the
first transition that has one. So it names one of many defects, and always the same.
-/

namespace Tilework

/-- The defect of a location behind others. -/
inductive Location.HasDefect (before : List Location) (l : Location) : ShapeDefect → Prop
  | repeated (h : l.id ∈ before.map (·.id)) : HasDefect before l (.duplicateLocation l.id)

/-- The defect of a transition behind others, in a tile with the given location ids. An id that
repeats counts before a source that is unknown, and that before a target. -/
inductive Transition.HasDefect (ids : List String) (before : List Transition) (t : Transition) :
    ShapeDefect → Prop
  | repeated (h : t.id ∈ before.map (·.id)) : HasDefect ids before t (.duplicateTransition t.id)
  | source (hid : t.id ∉ before.map (·.id)) (h : t.source ∉ ids) :
      HasDefect ids before t (.danglingEndpoint t.id t.source)
  | target (hid : t.id ∉ before.map (·.id)) (hsource : t.source ∈ ids) (h : t.target ∉ ids) :
      HasDefect ids before t (.danglingEndpoint t.id t.target)

/-- The defect of the first element that has one behind those before it. -/
def FirstDefect {α : Type} (Has : List α → α → ShapeDefect → Prop) (xs : List α)
    (defect : ShapeDefect) : Prop :=
  ∃ before x after, xs = before ++ x :: after ∧ Has before x defect ∧
    ∀ front y back, before = front ++ y :: back → ∀ other, ¬ Has front y other

section firstDefect

variable {α : Type} {Has : List α → α → ShapeDefect → Prop} {x : α} {xs : List α}
  {defect : ShapeDefect}

theorem not_firstDefect_nil : ¬ FirstDefect Has [] defect := by
  rintro ⟨before, x, after, hsplit, -⟩
  simp at hsplit

theorem firstDefect_cons_of_has (h : ∀ other, Has [] x other ↔ other = defect)
    {found : ShapeDefect} :
    FirstDefect Has (x :: xs) found ↔ found = defect := by
  constructor
  · rintro ⟨_ | ⟨y, before⟩, z, after, hsplit, hfound, hsound⟩
    · obtain ⟨rfl, rfl⟩ := List.cons.inj hsplit
      exact (h found).mp hfound
    · obtain ⟨rfl, rfl⟩ := List.cons.inj hsplit
      exact absurd ((h defect).mpr rfl) (hsound [] x before rfl defect)
  · rintro rfl
    refine ⟨[], x, xs, rfl, (h found).mpr rfl, fun front y back hsplit => ?_⟩
    simp at hsplit

theorem firstDefect_cons_of_sound (h : ∀ other, ¬ Has [] x other) :
    FirstDefect Has (x :: xs) defect ↔ FirstDefect (fun before => Has (x :: before)) xs defect := by
  constructor
  · rintro ⟨_ | ⟨y, before⟩, z, after, hsplit, hdefect, hsound⟩
    · obtain ⟨rfl, rfl⟩ := List.cons.inj hsplit
      exact absurd hdefect (h defect)
    · obtain ⟨rfl, rfl⟩ := List.cons.inj hsplit
      exact ⟨before, z, after, rfl, hdefect, fun front u back hbefore =>
        hsound (x :: front) u back (congrArg (x :: ·) hbefore)⟩
  · rintro ⟨before, z, after, rfl, hdefect, hsound⟩
    refine ⟨x :: before, z, after, rfl, hdefect, fun front u back hbefore => ?_⟩
    cases front with
    | nil =>
      obtain ⟨rfl, rfl⟩ := List.cons.inj hbefore
      exact h
    | cons y front =>
      obtain ⟨rfl, rfl⟩ := List.cons.inj hbefore
      exact hsound front u back rfl

end firstDefect

theorem exists_firstRepeat?_iff (earlier : List Location) {ls : List Location} {seen : List String}
    (hseen : ∀ id, id ∈ seen ↔ id ∈ earlier.map (·.id)) {defect : ShapeDefect} :
    (∃ id, firstRepeat? seen (ls.map (·.id)) = some id ∧ .duplicateLocation id = defect) ↔
      FirstDefect (fun before => Location.HasDefect (earlier ++ before)) ls defect := by
  induction ls generalizing earlier seen with
  | nil => exact iff_of_false (by simp [firstRepeat?]) not_firstDefect_nil
  | cons l ls ih =>
    rw [List.map_cons, firstRepeat?]
    by_cases hrepeat : l.id ∈ seen
    · have hhas : ∀ other, l.HasDefect (earlier ++ []) other ↔ other = .duplicateLocation l.id := by
        intro other
        constructor
        · rintro ⟨-⟩
          rfl
        · rintro rfl
          exact .repeated (by simpa [hseen] using hrepeat)
      rw [if_pos hrepeat, firstDefect_cons_of_has hhas, eq_comm]
      simp
    · have hsound : ∀ other, ¬ l.HasDefect (earlier ++ []) other := by
        rintro other ⟨h⟩
        exact hrepeat ((hseen l.id).mpr (by simpa using h))
      have hseen' : ∀ id, id ∈ l.id :: seen ↔ id ∈ (earlier ++ [l]).map (·.id) := by
        simp [hseen, or_comm]
      rw [if_neg hrepeat, firstDefect_cons_of_sound hsound, ih _ hseen']
      simp only [List.append_assoc, List.singleton_append]

namespace Transition

variable {ids : List String} {before : List Transition} {t : Transition}
  {defect other : ShapeDefect}

theorem HasDefect.unique (h : t.HasDefect ids before defect) (h' : t.HasDefect ids before other) :
    other = defect := by
  cases h <;> cases h' <;> simp_all

end Transition

theorem Tile.checkTransitions_eq_error_iff (earlier : List Transition) {ids seen : List String}
    {ts : List Transition} (hseen : ∀ id, id ∈ seen ↔ id ∈ earlier.map (·.id))
    {defect : ShapeDefect} :
    checkTransitions ids seen ts = .error defect ↔
      FirstDefect (fun before => Transition.HasDefect ids (earlier ++ before)) ts defect := by
  induction ts generalizing earlier seen with
  | nil => exact iff_of_false nofun not_firstDefect_nil
  | cons t ts ih =>
    have hid : t.id ∈ seen ↔ t.id ∈ (earlier ++ []).map Transition.id := by simp [hseen]
    have hfirst {found : ShapeDefect} (hfound : t.HasDefect ids (earlier ++ []) found) :
        Except.error (α := Unit) found = .error defect ↔
          FirstDefect (fun before => Transition.HasDefect ids (earlier ++ before)) (t :: ts)
            defect := by
      rw [firstDefect_cons_of_has fun other => ⟨hfound.unique, fun h => h ▸ hfound⟩,
        Except.error.injEq, eq_comm]
    rw [checkTransitions]
    split
    · next hrepeat => exact hfirst (.repeated (hid.mp hrepeat))
    split
    · next hnew hsource => exact hfirst (.source (fun h => hnew (hid.mpr h)) hsource)
    split
    · next hnew hsource htarget =>
      exact hfirst (.target (fun h => hnew (hid.mpr h)) (not_not.mp hsource) htarget)
    · next hnew hsource htarget =>
      have hsound : ∀ other, ¬ t.HasDefect ids (earlier ++ []) other := by
        rintro other (h | ⟨-, h⟩ | ⟨-, -, h⟩)
        · exact hnew (hid.mpr h)
        · exact hsource h
        · exact htarget h
      have hseen' : ∀ id, id ∈ t.id :: seen ↔ id ∈ (earlier ++ [t]).map (·.id) := by
        simp [hseen, or_comm]
      rw [firstDefect_cons_of_sound hsound, ih _ hseen']
      simp only [List.append_assoc, List.singleton_append]

/-- The check of a tile accepts exactly well-formed tiles. It reports a location before any
transition, and the first of either kind that has a defect. -/
theorem Tile.validate_reports (tile : Tile) :
    (tile.validate = .ok () ↔ tile.WellFormed) ∧
    ∀ defect, tile.validate = .error defect ↔
      FirstDefect Location.HasDefect tile.locations defect ∨
        tile.locationIds.Nodup ∧
          FirstDefect (Transition.HasDefect tile.locationIds) tile.transitions defect := by
  refine ⟨tile.validate_eq_ok_iff, fun defect => ?_⟩
  have hlocations : (∃ id, firstRepeat? [] tile.locationIds = some id ∧
      .duplicateLocation id = defect) ↔ FirstDefect Location.HasDefect tile.locations defect :=
    exists_firstRepeat?_iff [] (by simp)
  have htransitions : checkTransitions tile.locationIds [] tile.transitions = .error defect ↔
      FirstDefect (Transition.HasDefect tile.locationIds) tile.transitions defect :=
    checkTransitions_eq_error_iff [] (by simp)
  rw [validate, ← hlocations, ← htransitions]
  cases hrepeat : firstRepeat? [] tile.locationIds with
  | some id =>
    have hnot : ¬ tile.locationIds.Nodup := fun hnd => by
      rw [firstRepeat?_eq_none_iff.mpr ⟨hnd, by simp⟩] at hrepeat
      cases hrepeat
    simp [hnot]
  | none =>
    have hnd : tile.locationIds.Nodup := (firstRepeat?_eq_none_iff.mp hrepeat).1
    simp [hnd]

example : ({
    locations := [{ id := "a" }]
    transitions := [{ id := "e", source := "a", target := "a" },
      { id := "e", source := "b", target := "c" }, { id := "f", source := "d", target := "a" }]
    } : Tile).validate = .error (.duplicateTransition "e") := by decide

end Tilework
