import Mathlib.Data.List.Basic
import Tilework.Proofs.Identifier
import Tilework.Tile.Shape

/-!
# Well-formed tiles

`Tile.WellFormed` says what `Tile.validate` checks: location ids are distinct, transition ids are
distinct, and transitions end at locations of the tile. The check decides it, and where only
transition ids repeat it names one that does.
-/

namespace Tilework

/-- Ids are distinct, and transitions end at locations of the tile. -/
structure Tile.WellFormed (tile : Tile) : Prop where
  locations : tile.locationIds.Nodup
  transitions : tile.transitionIds.Nodup
  endpoints : ∀ t ∈ tile.transitions, t.source ∈ tile.locationIds ∧ t.target ∈ tile.locationIds

theorem firstRepeat?_eq_none_iff {seen ids : List String} :
    firstRepeat? seen ids = none ↔ ids.Nodup ∧ ∀ id ∈ ids, id ∉ seen := by
  induction ids generalizing seen with
  | nil => simp [firstRepeat?]
  | cons id ids ih =>
    by_cases h : id ∈ seen
    · simp [firstRepeat?, h]
    · rw [firstRepeat?, if_neg h, ih]
      simp only [List.mem_cons, not_or, List.nodup_cons, forall_eq_or_imp, h, not_false_eq_true,
        true_and]
      constructor
      · rintro ⟨hnd, hs⟩
        exact ⟨⟨fun hm => (hs id hm).1 rfl, hnd⟩, fun x hx => (hs x hx).2⟩
      · rintro ⟨⟨hid, hnd⟩, hs⟩
        exact ⟨hnd, fun x hx => ⟨fun he => hid (he ▸ hx), hs x hx⟩⟩

namespace Tile

theorem checkTransitions_eq_ok_iff {ids seen : List String} {ts : List Transition} :
    checkTransitions ids seen ts = .ok () ↔
      (ts.map (·.id)).Nodup ∧ (∀ t ∈ ts, t.id ∉ seen) ∧
        ∀ t ∈ ts, t.source ∈ ids ∧ t.target ∈ ids := by
  induction ts generalizing seen with
  | nil => simp [checkTransitions]
  | cons t ts ih =>
    by_cases hseen : t.id ∈ seen
    · simp [checkTransitions, hseen]
    by_cases hsource : t.source ∈ ids
    · by_cases htarget : t.target ∈ ids
      · simp only [checkTransitions, hseen, hsource, htarget, not_true_eq_false, if_false, ih,
          List.map_cons, List.nodup_cons, List.mem_cons, not_or, forall_eq_or_imp,
          not_false_eq_true, true_and, and_self]
        constructor
        · rintro ⟨hnd, hs, he⟩
          refine ⟨⟨?_, hnd⟩, fun u hu => (hs u hu).2, he⟩
          intro hm
          obtain ⟨u, hu, hid⟩ := List.mem_map.mp hm
          exact (hs u hu).1 hid
        · rintro ⟨⟨hid, hnd⟩, hs, he⟩
          refine ⟨hnd, fun u hu => ⟨fun heq => hid ?_, hs u hu⟩, he⟩
          exact List.mem_map.mpr ⟨u, hu, heq⟩
      · simp [checkTransitions, hseen, hsource, htarget]
    · simp [checkTransitions, hseen, hsource]

theorem validate_eq_ok_iff (tile : Tile) : tile.validate = .ok () ↔ tile.WellFormed := by
  rw [validate]
  cases h : firstRepeat? [] tile.locationIds with
  | some id =>
    have hrepeat : ¬ tile.locationIds.Nodup := by
      intro hnd
      rw [firstRepeat?_eq_none_iff.mpr ⟨hnd, by simp⟩] at h
      cases h
    simp only [reduceCtorEq, false_iff]
    exact fun hw => hrepeat hw.locations
  | none =>
    simp only [checkTransitions_eq_ok_iff]
    constructor
    · rintro ⟨hnd, -, he⟩
      exact ⟨(firstRepeat?_eq_none_iff.mp h).1, hnd, he⟩
    · rintro ⟨-, hnd, he⟩
      exact ⟨hnd, by simp, he⟩

theorem checkTransitions_eq_error {ids seen : List String} {ts : List Transition}
    (hends : ∀ t ∈ ts, t.source ∈ ids ∧ t.target ∈ ids)
    (h : checkTransitions ids seen ts ≠ .ok ()) :
    ∃ id ∈ ts.map (·.id), checkTransitions ids seen ts = .error (.duplicateTransition id) := by
  induction ts generalizing seen with
  | nil => exact absurd rfl h
  | cons t ts ih =>
    obtain ⟨hsource, htarget⟩ := hends t (by simp)
    by_cases hseen : t.id ∈ seen
    · exact ⟨t.id, by simp, by simp [checkTransitions, hseen]⟩
    · have hstep :
          checkTransitions ids seen (t :: ts) = checkTransitions ids (t.id :: seen) ts := by
        simp [checkTransitions, hseen, hsource, htarget]
      rw [hstep] at h ⊢
      obtain ⟨id, hid, herror⟩ := ih (fun u hu => hends u (by simp [hu])) h
      exact ⟨id, by rw [List.map_cons]; exact List.mem_cons_of_mem _ hid, herror⟩

theorem validate_eq_error {tile : Tile} (hnd : tile.locationIds.Nodup)
    (hends : ∀ t ∈ tile.transitions, t.source ∈ tile.locationIds ∧ t.target ∈ tile.locationIds)
    (h : tile.validate ≠ .ok ()) :
    ∃ id ∈ tile.transitionIds, tile.validate = .error (.duplicateTransition id) := by
  have hvalidate : tile.validate = checkTransitions tile.locationIds [] tile.transitions := by
    rw [validate, firstRepeat?_eq_none_iff.mpr ⟨hnd, by simp⟩]
  rw [hvalidate] at h ⊢
  exact checkTransitions_eq_error hends h

end Tile

end Tilework
