import Mathlib.Data.List.Nodup
import Mathlib.Data.String.Basic
import Tilework.Catalog
import Tilework.Proofs.Sequencing

/-!
# Ordered catalogs

Registering names keeps the entries of a catalog ordered: longer names first, names of one length
ascending, and so each name once. In an ordered catalog the first entry that starts a text is the
longest one that does. A name is therefore found at its own beginning, with its class.
-/

namespace Tilework

namespace Catalog

theorem precedes_iff {a b : String} :
    precedes a b ↔ b.utf8ByteSize < a.utf8ByteSize ∨ a.utf8ByteSize = b.utf8ByteSize ∧ a < b := by
  simp [precedes]

theorem precedes_trans {a b c : String} (hab : precedes a b) (hbc : precedes b c) :
    precedes a c := by
  rw [precedes_iff] at hab hbc ⊢
  rcases hab with hab | ⟨hab, hlt⟩
  · left
    omega
  · rcases hbc with hbc | ⟨hbc, hlt'⟩
    · left
      omega
    · right
      exact ⟨by omega, lt_trans hlt hlt'⟩

theorem precedes_irrefl (a : String) : ¬ precedes a a := by
  rw [precedes_iff]
  rintro (h | ⟨-, h⟩)
  · exact Nat.lt_irrefl _ h
  · exact lt_irrefl a h

theorem precedes_of_ne {a b : String} (hne : a ≠ b) (h : ¬ precedes b a) : precedes a b := by
  rw [precedes_iff] at h ⊢
  rcases lt_or_gt_of_ne hne with hlt | hgt
  · by_cases hsize : b.utf8ByteSize < a.utf8ByteSize
    · exact Or.inl hsize
    · right
      exact ⟨by omega, hlt⟩
  · left
    by_contra hsize
    apply h
    by_cases heq : b.utf8ByteSize = a.utf8ByteSize
    · exact Or.inr ⟨heq, hgt⟩
    · left
      omega

/-- Entries stand in their order, and their names are names. -/
structure Ordered (catalog : Catalog) : Prop where
  sorted : catalog.entries.Pairwise fun a b => precedes a.1 b.1
  names : ∀ e ∈ catalog.entries, isName e.1.toList

theorem mem_insertEntry {entry e : String × TileClass} {es : List (String × TileClass)} :
    e ∈ insertEntry entry es ↔ e = entry ∨ e ∈ es := by
  induction es with
  | nil => simp [insertEntry]
  | cons first es ih =>
    rw [insertEntry]
    split
    · simp only [List.mem_cons, ih]
      exact or_left_comm
    · simp

theorem pairwise_insertEntry {entry : String × TileClass} {es : List (String × TileClass)}
    (h : es.Pairwise fun a b => precedes a.1 b.1) (hnew : ∀ e ∈ es, e.1 ≠ entry.1) :
    (insertEntry entry es).Pairwise fun a b => precedes a.1 b.1 := by
  induction es with
  | nil => simp [insertEntry]
  | cons first es ih =>
    obtain ⟨hfirst, hrest⟩ := List.pairwise_cons.mp h
    rw [insertEntry]
    split
    · next hprecedes =>
      refine List.pairwise_cons.mpr ⟨?_, ih hrest fun e he => hnew e (by simp [he])⟩
      intro e he
      rcases mem_insertEntry.mp he with rfl | he
      · exact hprecedes
      · exact hfirst e he
    · next hprecedes =>
      have hentry : precedes entry.1 first.1 :=
        precedes_of_ne (hnew first (by simp)).symm hprecedes
      refine List.pairwise_cons.mpr ⟨?_, h⟩
      intro e he
      rcases List.mem_cons.mp he with rfl | he
      · exact hentry
      · exact precedes_trans hentry (hfirst e he)

variable {catalog catalog' : Catalog}

theorem Ordered.insert (h : catalog.Ordered) {name : String} {cls : TileClass}
    (hinsert : catalog.insert name cls = .ok catalog') : catalog'.Ordered := by
  rw [Catalog.insert] at hinsert
  split at hinsert
  · next hname =>
    split at hinsert
    · next hclass =>
      cases hinsert
      have hnew : ∀ e ∈ catalog.entries, e.1 ≠ name := by
        simpa [classOf?, List.find?_eq_none] using hclass
      constructor
      · exact pairwise_insertEntry h.sorted hnew
      · intro e he
        rcases mem_insertEntry.mp he with rfl | he
        · exact hname
        · exact h.names e he
    · split at hinsert
      · cases hinsert
        exact h
      · cases hinsert
  · cases hinsert

theorem insertAll_cons_eq_ok {entries : List (String × TileClass)} {name : String}
    {cls : TileClass} :
    catalog.insertAll ((name, cls) :: entries) = .ok catalog' ↔
      ∃ middle, catalog.insert name cls = .ok middle ∧ middle.insertAll entries = .ok catalog' := by
  rw [insertAll, List.foldlM_cons]
  exact bind_eq_ok_iff

theorem Ordered.insertAll {entries : List (String × TileClass)} (h : catalog.Ordered)
    (hinsert : catalog.insertAll entries = .ok catalog') : catalog'.Ordered := by
  induction entries generalizing catalog with
  | nil =>
    cases hinsert
    exact h
  | cons e entries ih =>
    obtain ⟨middle, hfirst, hrest⟩ := insertAll_cons_eq_ok.mp hinsert
    exact ih (h.insert hfirst) hrest

theorem ordered_of_insertAll {entries : List (String × TileClass)}
    (h : ({} : Catalog).insertAll entries = .ok catalog) : catalog.Ordered := by
  have hempty : ({} : Catalog).Ordered := ⟨List.Pairwise.nil, by simp⟩
  exact hempty.insertAll h

theorem prefix_inj {a b : String} {text : List Char} (ha : a.toList <+: text)
    (hb : b.toList <+: text) (hsize : a.utf8ByteSize = b.utf8ByteSize) : a = b := by
  have hshort : ∀ {x y : String}, x.toList <+: y.toList → x.utf8ByteSize = y.utf8ByteSize →
      x = y := by
    rintro x y ⟨rest, hrest⟩ hxy
    have hy : y = x ++ String.ofList rest := by
      rw [← String.toList_inj, String.toList_append, String.toList_ofList, hrest]
    rw [hy, String.utf8ByteSize_append] at hxy
    have hnil : String.ofList rest = "" := String.utf8ByteSize_eq_zero_iff.mp (by omega)
    rw [hy, hnil, String.append_empty]
  rcases List.prefix_or_prefix_of_prefix ha hb with hab | hba
  · exact hshort hab hsize
  · exact (hshort hba hsize.symm).symm

theorem prefix_size_le {a b : String} (h : a.toList <+: b.toList) :
    a.utf8ByteSize ≤ b.utf8ByteSize := by
  obtain ⟨rest, hrest⟩ := h
  have hb : b = a ++ String.ofList rest := by
    rw [← String.toList_inj, String.toList_append, String.toList_ofList, hrest]
  rw [hb, String.utf8ByteSize_append]
  omega

namespace Ordered

theorem toList_ne_nil (h : catalog.Ordered) {e : String × TileClass} (he : e ∈ catalog.entries) :
    e.1.toList ≠ [] := by
  intro hnil
  have hname := h.names e he
  simp [hnil, isName] at hname

theorem nodup_names (h : catalog.Ordered) : (catalog.entries.map (·.1)).Nodup := by
  rw [List.Nodup, List.pairwise_map]
  apply h.sorted.imp
  intro a b hprecedes heq
  rw [heq] at hprecedes
  exact precedes_irrefl _ hprecedes

theorem eq_of_name_eq (h : catalog.Ordered) {e e' : String × TileClass}
    (he : e ∈ catalog.entries) (he' : e' ∈ catalog.entries) (hname : e.1 = e'.1) : e = e' :=
  List.inj_on_of_nodup_map h.nodup_names he he' hname

theorem classOf?_eq_some (h : catalog.Ordered) {name : String} {cls : TileClass} :
    catalog.classOf? name = some cls ↔ (name, cls) ∈ catalog.entries := by
  rw [classOf?, Option.map_eq_some_iff]
  constructor
  · rintro ⟨e, hfind, rfl⟩
    have hname : e.1 = name := by simpa using List.find?_some hfind
    rw [← hname]
    exact List.mem_of_find?_eq_some hfind
  · intro hmem
    cases hfind : catalog.entries.find? (·.1 = name) with
    | none =>
      have hne := List.find?_eq_none.mp hfind (name, cls) hmem
      simp at hne
    | some e =>
      have hname : e.1 = name := by simpa using List.find?_some hfind
      have he := h.eq_of_name_eq (List.mem_of_find?_eq_some hfind) hmem hname
      exact ⟨e, rfl, by rw [he]⟩

/-- The entry that is found is the longest one that starts the text. -/
theorem longestPrefix?_eq_some (h : catalog.Ordered) {text : List Char} {e : String × TileClass} :
    catalog.longestPrefix? text = some e ↔
      e ∈ catalog.entries ∧ e.1.toList <+: text ∧
        ∀ e' ∈ catalog.entries, e'.1.toList <+: text → e'.1.utf8ByteSize ≤ e.1.utf8ByteSize := by
  have hfound : ∀ {e : String × TileClass}, catalog.longestPrefix? text = some e →
      e ∈ catalog.entries ∧ e.1.toList <+: text ∧
        ∀ e' ∈ catalog.entries, e'.1.toList <+: text → e'.1.utf8ByteSize ≤ e.1.utf8ByteSize := by
    intro e hfind
    obtain ⟨hstart, before, behind, hentries, hbefore⟩ := List.find?_eq_some_iff_append.mp hfind
    refine ⟨List.mem_of_find?_eq_some hfind, List.isPrefixOf_iff_prefix.mp hstart, ?_⟩
    intro e' he' hstart'
    rw [hentries] at he'
    have hsorted := h.sorted
    rw [hentries] at hsorted
    rcases List.mem_append.mp he' with hmem | hmem
    · have hnot := hbefore e' hmem
      rw [List.isPrefixOf_iff_prefix.mpr hstart'] at hnot
      cases hnot
    · rcases List.mem_cons.mp hmem with rfl | hmem
      · exact Nat.le_refl _
      · have hprecedes := (List.pairwise_cons.mp (List.pairwise_append.mp hsorted).2.1).1 e' hmem
        rw [precedes_iff] at hprecedes
        omega
  constructor
  · exact hfound
  · rintro ⟨hmem, hstart, hlongest⟩
    cases hfind : catalog.longestPrefix? text with
    | none =>
      have hnot := List.find?_eq_none.mp hfind e hmem
      exact absurd (List.isPrefixOf_iff_prefix.mpr hstart) hnot
    | some e' =>
      obtain ⟨hmem', hstart', hlongest'⟩ := hfound hfind
      have hsize := hlongest e' hmem' hstart'
      have hsize' := hlongest' e hmem hstart
      rw [h.eq_of_name_eq hmem' hmem (prefix_inj hstart' hstart (by omega))]

theorem longestPrefix?_self (h : catalog.Ordered) {name : String} {cls : TileClass}
    (hmem : (name, cls) ∈ catalog.entries) :
    catalog.longestPrefix? name.toList = some (name, cls) := by
  refine h.longestPrefix?_eq_some.mpr ⟨hmem, List.prefix_rfl, ?_⟩
  intro e _ hstart
  exact prefix_size_le hstart

end Ordered

end Catalog

end Tilework
