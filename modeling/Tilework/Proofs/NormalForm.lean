import Mathlib.Data.List.ReduceOption
import Tilework.Proofs.Splitting
import Tilework.Proofs.Trimming
import Tilework.Tile.Basic

/-!
# The normal form of assignment lists

The parts of an assignment list are cut at its semicolons and trimmed, and those of which nothing is
left are dropped. The normal form is written from the parts alone and has the same parts again. So
it is a normal form of itself, and two lists one after the other have the parts of both.
-/

namespace Tilework

open Text

/-- A part that can be neither cut nor trimmed any further. -/
structure IsPart (part : List Char) : Prop where
  uncut : ';' ∉ part
  proper : part ≠ []
  head : ∀ c ∈ part.head?, isBlank c = false
  last : ∀ c ∈ part.getLast?, isBlank c = false

variable {text part : List Char} {parts : List (List Char)}

theorem isPart_of_mem_assignmentParts (h : part ∈ assignmentParts text) : IsPart part := by
  obtain ⟨hmem, hproper⟩ := List.mem_filter.mp h
  obtain ⟨cut, hcut, rfl⟩ := List.mem_map.mp hmem
  have htrims := trims_trim cut
  exact {
    uncut hsep := notMem_of_mem_splitOn hcut (htrims.subset hsep)
    proper := by simpa using hproper
    head := htrims.head
    last := htrims.last }

theorem assignmentParts_append_sep (xs ys : List Char) :
    assignmentParts (xs ++ ';' :: ys) = assignmentParts xs ++ assignmentParts ys := by
  rw [assignmentParts, splitOn_append_sep, List.map_append, List.filter_append]
  rfl

theorem IsPart.trim_eq (h : IsPart part) : trim part = part :=
  Trims.trim_eq ⟨⟨[], [], nofun, nofun, by simp⟩, h.head, h.last⟩

theorem map_trim_splitOn_blank {sep c : Char} (hblank : isBlank c = true) (hne : c ≠ sep)
    (cs : List Char) : (splitOn sep (c :: cs)).map trim = (splitOn sep cs).map trim := by
  rw [splitOn, if_neg hne]
  cases hparts : splitOn sep cs with
  | nil => exact absurd hparts (splitOn_ne_nil sep cs)
  | cons part parts =>
    have htrim : trim (c :: part) = trim part := by
      rw [trim, trimStart, List.dropWhile_cons_of_pos hblank]
      rfl
    rw [List.map_cons, List.map_cons, htrim]

theorem map_trim_splitOn_intercalate (h : ∀ part ∈ parts, IsPart part) (hne : parts ≠ []) :
    (splitOn ';' ([';', ' '].intercalate parts)).map trim = parts := by
  induction parts with
  | nil => exact absurd rfl hne
  | cons part rest ih =>
    obtain ⟨hpart, hrest⟩ := List.forall_mem_cons.mp h
    cases rest with
    | nil =>
      rw [List.intercalate_singleton, splitOn_of_notMem hpart.uncut, List.map_singleton,
        hpart.trim_eq]
    | cons next rest =>
      have hcut : [';', ' '].intercalate (part :: next :: rest) =
          part ++ ';' :: ' ' :: [';', ' '].intercalate (next :: rest) := by
        rw [List.intercalate_cons_cons]
        simp
      rw [hcut, splitOn_append_sep, splitOn_of_notMem hpart.uncut, List.map_append,
        map_trim_splitOn_blank (by decide) (by decide), ih hrest (List.cons_ne_nil _ _),
        List.map_singleton, hpart.trim_eq, List.singleton_append]

theorem head?_intercalate (h : ∀ part ∈ parts, IsPart part) :
    ∀ c ∈ ([';', ' '].intercalate parts).head?, isBlank c = false := by
  cases parts with
  | nil => nofun
  | cons part rest =>
    have hpart := (List.forall_mem_cons.mp h).1
    cases rest with
    | nil =>
      rw [List.intercalate_singleton]
      exact hpart.head
    | cons next rest =>
      rw [List.intercalate_cons_cons, List.append_assoc, List.head?_append_of_ne_nil _ hpart.proper]
      exact hpart.head

theorem intercalate_ne_nil (h : ∀ part ∈ parts, IsPart part) (hne : parts ≠ []) :
    [';', ' '].intercalate parts ≠ [] := by
  intro hnil
  have hparts := map_trim_splitOn_intercalate h hne
  rw [hnil] at hparts
  have hempty : IsPart [] := h [] (by rw [← hparts]; simp)
  exact hempty.proper rfl

theorem getLast?_intercalate (h : ∀ part ∈ parts, IsPart part) :
    ∀ c ∈ ([';', ' '].intercalate parts).getLast?, isBlank c = false := by
  induction parts with
  | nil => nofun
  | cons part rest ih =>
    obtain ⟨hpart, hrest⟩ := List.forall_mem_cons.mp h
    cases rest with
    | nil =>
      rw [List.intercalate_singleton]
      exact hpart.last
    | cons next rest =>
      rw [List.intercalate_cons_cons,
        List.getLast?_append_of_ne_nil _ (intercalate_ne_nil hrest (List.cons_ne_nil _ _))]
      exact ih hrest

/-- The text of parts, if there are any. -/
def writeParts (parts : List (List Char)) : Option String :=
  if parts = [] then none else some ("; ".intercalate (parts.map String.ofList))

theorem writeParts_eq_none_iff : writeParts parts = none ↔ parts = [] := by
  rw [writeParts]
  split <;> simp [*]

theorem toList_of_mem_writeParts {form : String} (h : form ∈ writeParts parts) :
    parts ≠ [] ∧ form.toList = [';', ' '].intercalate parts := by
  rw [writeParts] at h
  split at h
  · cases h
  · next hne =>
    obtain rfl : "; ".intercalate (parts.map String.ofList) = form := Option.some.inj h
    refine ⟨hne, ?_⟩
    rw [String.toList_intercalate, List.map_map]
    simp [Function.comp_def]

theorem normalizeAssignment_eq (text : String) :
    normalizeAssignment text = writeParts (assignmentParts text.toList) := by
  rw [normalizeAssignment]
  split
  · next hparts => rw [hparts, writeParts, if_pos rfl]
  · next hparts =>
    rw [writeParts, if_neg hparts, Option.some.injEq, ← String.toList_inj, String.toList_ofList,
      String.toList_intercalate, List.map_map]
    simp [Function.comp_def]

/-- Texts one after another, joined as parts are. Absent texts are left out. -/
def joinForms (forms : List (Option String)) : Option String :=
  if forms.reduceOption = [] then none else some ("; ".intercalate forms.reduceOption)

theorem writeParts_append (parts parts' : List (List Char)) :
    writeParts (parts ++ parts') = joinForms [writeParts parts, writeParts parts'] := by
  by_cases hparts : parts = [] <;> by_cases hparts' : parts' = [] <;>
    simp [hparts, hparts', writeParts, joinForms, List.reduceOption,
      String.intercalate_append_of_ne_nil]

/-- An assignment list has no normal form when all of its parts are blank. Otherwise its normal form
has exactly its parts that are not blank, trimmed and in order, has no blank at its ends, and is its
own normal form. The normal form of two lists one after the other is that of the first and then that
of the second, as far as they have one. -/
theorem normalizeAssignment_normalForm (a b : String) :
    (normalizeAssignment a = none ↔ ∀ part ∈ splitOn ';' a.toList, trim part = []) ∧
    (∀ form ∈ normalizeAssignment a,
      (splitOn ';' form.toList).map trim = ((splitOn ';' a.toList).map trim).filter (· ≠ []) ∧
      (∀ part ∈ splitOn ';' form.toList, trim part ≠ []) ∧
      (∀ c ∈ form.toList.head?, isBlank c = false) ∧
      (∀ c ∈ form.toList.getLast?, isBlank c = false) ∧
      normalizeAssignment form = some form) ∧
    normalizeAssignment (a ++ ";" ++ b) =
      joinForms [normalizeAssignment a, normalizeAssignment b] := by
  refine ⟨?_, fun form hform => ?_, ?_⟩
  · rw [normalizeAssignment_eq, writeParts_eq_none_iff, assignmentParts, List.filter_eq_nil_iff]
    simp
  · have hparts : ∀ part ∈ assignmentParts a.toList, IsPart part :=
      fun _ hpart => isPart_of_mem_assignmentParts hpart
    rw [normalizeAssignment_eq] at hform
    obtain ⟨hne, htext⟩ := toList_of_mem_writeParts hform
    have hfound := map_trim_splitOn_intercalate hparts hne
    rw [htext]
    refine ⟨hfound, fun part hpart => ?_, head?_intercalate hparts, getLast?_intercalate hparts, ?_⟩
    · have hmem := List.mem_map_of_mem (f := trim) hpart
      rw [hfound] at hmem
      exact (hparts _ hmem).proper
    · have hsame : assignmentParts form.toList = assignmentParts a.toList := by
        rw [assignmentParts, htext, hfound, List.filter_eq_self]
        exact fun part hpart => by simpa using (hparts part hpart).proper
      rw [normalizeAssignment_eq, hsame]
      exact hform
  · have htext : (a ++ ";" ++ b).toList = a.toList ++ ';' :: b.toList := by simp
    rw [normalizeAssignment_eq, htext, assignmentParts_append_sep, writeParts_append,
      ← normalizeAssignment_eq, ← normalizeAssignment_eq]

example : normalizeAssignment " x = 0;\u2003; \u00a0y = 1 ;" = some "x = 0; y = 1" := by
  decide +kernel

end Tilework
