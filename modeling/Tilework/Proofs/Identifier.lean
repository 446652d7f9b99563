import Mathlib.Data.List.Basic
import Tilework.Operator.Merge
import Tilework.Tile.Stamp

/-!
# Identifiers

The digits of a namespace hold no underscore, so a stamped id can be cut at its last underscore:
stamping is injective in the namespace and in the id together. The id of a joint between stamped
ids is itself stamped, with the namespace of its entry. An arrow in a stamped id stands in the id
that was stamped, so two joints can share their id only when an exit was given an arrow.
-/

namespace Tilework

theorem toList_stampId (ns : Nat) (id : String) :
    (stampId ns id).toList = id.toList ++ '_' :: Nat.toDigits 10 ns := by
  simp [stampId]

theorem toDigits_injective {n m : Nat} (h : Nat.toDigits 10 n = Nat.toDigits 10 m) : n = m := by
  calc
    n = Nat.ofDigitChars 10 (Nat.toDigits 10 n) 0 := Nat.ofDigitChars_ten_toDigits.symm
    _ = Nat.ofDigitChars 10 (Nat.toDigits 10 m) 0 := by rw [h]
    _ = m := Nat.ofDigitChars_ten_toDigits

/-- Two texts cut at the first occurrence of the same character agree part by part. -/
theorem eq_of_append_cons {α : Type} {c : α} {us vs xs ys : List α} (hu : c ∉ us) (hv : c ∉ vs)
    (h : us ++ c :: xs = vs ++ c :: ys) : us = vs ∧ xs = ys := by
  induction us generalizing vs with
  | nil =>
    cases vs with
    | nil => exact ⟨rfl, (List.cons.inj h).2⟩
    | cons v vs =>
      have hc : c = v := (List.cons.inj h).1
      exact absurd (by simp [hc]) hv
  | cons u us ih =>
    cases vs with
    | nil =>
      have hc : u = c := (List.cons.inj h).1
      exact absurd (by simp [hc]) hu
    | cons v vs =>
      obtain ⟨hhead, htail⟩ := List.cons.inj h
      obtain ⟨hus, hxs⟩ := ih (fun hm => hu (by simp [hm])) (fun hm => hv (by simp [hm])) htail
      exact ⟨by rw [hhead, hus], hxs⟩

/-- The namespace and the id can both be read off a stamped id. -/
theorem stampId_inj {n m : Nat} {x y : String} : stampId n x = stampId m y ↔ n = m ∧ x = y := by
  constructor
  · intro h
    have hr := congrArg (List.reverse ∘ String.toList) h
    simp only [Function.comp_apply, toList_stampId, List.reverse_append, List.reverse_cons,
      List.append_assoc, List.singleton_append] at hr
    -- Reversed, the digits come first, and they do not hold the underscore behind them.
    obtain ⟨hd, hx⟩ := eq_of_append_cons (by simp [Nat.underscore_not_in_toDigits])
      (by simp [Nat.underscore_not_in_toDigits]) hr
    exact ⟨toDigits_injective (List.reverse_inj.mp hd),
      String.toList_inj.mp (List.reverse_inj.mp hx)⟩
  · rintro ⟨rfl, rfl⟩
    rfl

theorem stampId_injective (ns : Nat) : Function.Injective (stampId ns) :=
  fun _ _ h => (stampId_inj.mp h).2

namespace Tile

def identifiers (tile : Tile) : List String := tile.locationIds ++ tile.transitionIds

theorem identifiers_stamp (ns : Nat) (tile : Tile) :
    (tile.stamp ns).identifiers = tile.identifiers.map (stampId ns) := by
  rw [identifiers, locationIds_stamp, transitionIds_stamp, ← List.map_append]
  rfl

theorem boundary_stamp (ns : Nat) (tile : Tile) (role : Role) :
    (tile.stamp ns).boundary role = (tile.boundary role).map (stampId ns) := by
  simp [boundary, stamp, List.filter_map, Function.comp_def, Location.stamp]

end Tile

/-- The text between the two ends of a joint in its id. -/
def arrow : List Char := ['-', '>']

def HasArrow (id : String) : Prop := arrow <:+: id.toList

instance (id : String) : Decidable (HasArrow id) := inferInstanceAs (Decidable (_ <:+: _))

/-- Stamping adds no arrow, not even across its border. -/
theorem HasArrow.of_stampId {ns : Nat} {id : String} (h : HasArrow (stampId ns id)) :
    HasArrow id := by
  obtain ⟨before, after, h⟩ := h
  rw [toList_stampId] at h
  rcases List.append_eq_append_iff.mp h with ⟨rest, hid, _⟩ | ⟨rest, hid, hdigits⟩
  · exact ⟨before, rest, hid.symm⟩
  · rcases List.eq_nil_or_concat rest with rfl | ⟨rest, c, rfl⟩
    · exact ⟨before, [], by simpa using hid⟩
    · -- The arrow would end behind the id, where only the underscore and digits stand.
      have hc : c = '>' := by
        have hlast := congrArg List.getLast? hid
        simpa [arrow] using hlast.symm
      have hmem : '>' ∈ '_' :: Nat.toDigits 10 ns := by rw [hdigits, hc]; simp
      rcases List.mem_cons.mp hmem with hu | hd
      · exact absurd hu (by decide)
      · have := Nat.isDigit_of_mem_toDigits (by decide) (by decide) hd
        exact absurd this (by decide)

namespace Joint

def id (joint : Joint) : String := joint.exit ++ "->" ++ joint.entry

theorem id_stampId (exit entry : String) (ns : Nat) :
    id ⟨exit, stampId ns entry⟩ = stampId ns (id ⟨exit, entry⟩) := by
  simp [id, stampId, String.append_assoc]

theorem hasArrow_id (joint : Joint) : HasArrow joint.id :=
  ⟨joint.exit.toList, joint.entry.toList, by simp [id, arrow]⟩

theorem arrow_prefix {rest xs ys : List Char} (hne : rest ≠ [])
    (h : rest ++ arrow ++ xs = arrow ++ ys) : arrow <+: rest := by
  match rest, hne with
  | [c], _ => simp [arrow] at h
  | c :: d :: rest, _ =>
    simp only [arrow, List.cons_append, List.nil_append, List.cons.injEq] at h
    exact ⟨rest, by simp [arrow, h.1, h.2.1]⟩

theorem hasArrow_of_append {exit exit' rest entry entry' : List Char}
    (hexit : exit' = exit ++ rest) (hne : rest ≠ [])
    (h : arrow ++ entry = rest ++ (arrow ++ entry')) : arrow <:+: exit' := by
  obtain ⟨tail, htail⟩ := arrow_prefix hne (by rw [List.append_assoc]; exact h.symm)
  exact ⟨exit, tail, by rw [hexit, ← htail, List.append_assoc]⟩

theorem hasArrow_of_id_eq {j k : Joint} (h : j.id = k.id) (hne : j.exit ≠ k.exit) :
    HasArrow j.exit ∨ HasArrow k.exit := by
  have hl : j.exit.toList ++ (arrow ++ j.entry.toList) =
      k.exit.toList ++ (arrow ++ k.entry.toList) := by
    simpa [id, arrow] using congrArg String.toList h
  rcases List.append_eq_append_iff.mp hl with ⟨rest, hk, hr⟩ | ⟨rest, hj, hr⟩
  · have hrest : rest ≠ [] := by
      rintro rfl
      exact hne (String.toList_inj.mp (by simpa using hk.symm))
    exact Or.inr (hasArrow_of_append hk hrest hr)
  · have hrest : rest ≠ [] := by
      rintro rfl
      exact hne (String.toList_inj.mp (by simpa using hj))
    exact Or.inl (hasArrow_of_append hj hrest hr)

end Joint

end Tilework
