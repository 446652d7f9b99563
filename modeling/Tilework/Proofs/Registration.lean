import Tilework.Proofs.Catalog

/-!
# A catalog is the set of its entries

Registering succeeds when every text is a name and none comes in two classes, and then the catalog
has the registered entries in an order of its own. So it depends on what is registered, and neither
on the order in which this is done nor on how often.
-/

namespace Tilework.Catalog

variable {catalog catalog' : Catalog} {entries : List (String × TileClass)}

theorem Ordered.ext (h : catalog.Ordered) (h' : catalog'.Ordered)
    (hmem : ∀ e, e ∈ catalog.entries ↔ e ∈ catalog'.entries) : catalog = catalog' := by
  have hperm : catalog.entries.Perm catalog'.entries :=
    (List.perm_ext_iff_of_nodup h.nodup_names.of_map h'.nodup_names.of_map).mpr hmem
  have heq : catalog.entries = catalog'.entries := by
    refine hperm.eq_of_pairwise ?_ h.sorted h'.sorted
    intro a b _ _ hab hba
    exact absurd (precedes_trans hab hba) (precedes_irrefl _)
  cases catalog
  cases catalog'
  exact congrArg Catalog.mk heq

theorem Ordered.mem_insert (h : catalog.Ordered) {name : String} {cls : TileClass}
    (hinsert : catalog.insert name cls = .ok catalog') (e : String × TileClass) :
    e ∈ catalog'.entries ↔ e ∈ (name, cls) :: catalog.entries := by
  rw [Catalog.insert] at hinsert
  split at hinsert
  · split at hinsert
    · cases hinsert
      rw [mem_insertEntry, List.mem_cons]
    · next existing hclass =>
      split at hinsert
      · next hsame =>
        cases hinsert
        have hmem : (name, cls) ∈ catalog.entries := h.classOf?_eq_some.mp (hsame ▸ hclass)
        rw [List.mem_cons]
        exact ⟨Or.inr, fun he => he.elim (fun heq => heq ▸ hmem) id⟩
      · cases hinsert
  · cases hinsert

theorem Ordered.mem_insertAll (h : catalog.Ordered)
    (hinsert : catalog.insertAll entries = .ok catalog') (e : String × TileClass) :
    e ∈ catalog'.entries ↔ e ∈ entries ∨ e ∈ catalog.entries := by
  induction entries generalizing catalog with
  | nil =>
    cases hinsert
    simp
  | cons entry entries ih =>
    obtain ⟨middle, hfirst, hrest⟩ := insertAll_cons_eq_ok.mp hinsert
    rw [ih (h.insert hfirst) hrest, h.mem_insert hfirst, List.mem_cons, List.mem_cons,
      or_left_comm, or_assoc]

theorem Ordered.exists_insert {full : Catalog} (hfull : full.Ordered) (h : catalog.Ordered)
    (hsub : ∀ e ∈ catalog.entries, e ∈ full.entries) {name : String} {cls : TileClass}
    (hmem : (name, cls) ∈ full.entries) : ∃ catalog', catalog.insert name cls = .ok catalog' := by
  rw [Catalog.insert, if_pos (hfull.names _ hmem)]
  cases hclass : catalog.classOf? name with
  | none => exact ⟨_, rfl⟩
  | some existing =>
    have hexisting := hsub _ (h.classOf?_eq_some.mp hclass)
    have hsame : existing = cls := congrArg Prod.snd (hfull.eq_of_name_eq hexisting hmem rfl)
    exact ⟨catalog, if_pos hsame⟩

theorem Ordered.exists_insertAll {full : Catalog} (hfull : full.Ordered) (h : catalog.Ordered)
    (hsub : ∀ e ∈ catalog.entries, e ∈ full.entries) (hentries : ∀ e ∈ entries, e ∈ full.entries) :
    ∃ catalog', catalog.insertAll entries = .ok catalog' := by
  induction entries generalizing catalog with
  | nil => exact ⟨catalog, rfl⟩
  | cons entry entries ih =>
    obtain ⟨name, cls⟩ := entry
    rw [List.forall_mem_cons] at hentries
    obtain ⟨middle, hfirst⟩ := hfull.exists_insert h hsub hentries.1
    have hmiddle : ∀ e ∈ middle.entries, e ∈ full.entries := by
      intro e he
      rcases List.mem_cons.mp ((h.mem_insert hfirst e).mp he) with rfl | he
      · exact hentries.1
      · exact hsub e he
    obtain ⟨catalog', hrest⟩ := ih (h.insert hfirst) hmiddle hentries.2
    exact ⟨catalog', insertAll_cons_eq_ok.mpr ⟨middle, hfirst, hrest⟩⟩

/-- Registering gives the ordered catalog of the registered entries, if there is one. -/
theorem insertAll_eq_ok_iff :
    ({} : Catalog).insertAll entries = .ok catalog ↔
      catalog.Ordered ∧ ∀ e, e ∈ catalog.entries ↔ e ∈ entries := by
  have hempty : ({} : Catalog).Ordered := ⟨List.Pairwise.nil, by simp⟩
  constructor
  · intro h
    exact ⟨ordered_of_insertAll h, fun e => by simpa using hempty.mem_insertAll h e⟩
  · rintro ⟨hordered, hmem⟩
    have hentries : ∀ e ∈ entries, e ∈ catalog.entries := fun e he => (hmem e).mpr he
    obtain ⟨catalog', h⟩ := hordered.exists_insertAll hempty (by simp) hentries
    have hsame : catalog' = catalog := by
      refine (ordered_of_insertAll h).ext hordered fun e => ?_
      rw [hmem e]
      simpa using hempty.mem_insertAll h e
    rw [h, hsame]

end Tilework.Catalog
