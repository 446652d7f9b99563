import Mathlib.Data.List.Basic
import Mathlib.Data.List.TakeWhile
import Tilework.Text.Basic

/-!
# Trimming

A run of characters of one kind ends where a character of another kind follows. Trimming takes the
runs of blanks from the two ends of a text; what is left is the only part of the text that has
nothing but blanks around it and no blank at its own ends.
-/

namespace Tilework

theorem takeWhile_append_of_stops {α : Type} {p : α → Bool} {xs rest : List α}
    (hall : ∀ x ∈ xs, p x = true) (hstop : ∀ x ∈ rest.head?, p x = false) :
    (xs ++ rest).takeWhile p = xs := by
  rw [List.takeWhile_append_of_pos hall]
  cases rest with
  | nil => simp
  | cons x rest => rw [List.takeWhile_cons_of_neg (by simp [hstop x rfl]), List.append_nil]

theorem dropWhile_append_of_stops {α : Type} {p : α → Bool} {xs rest : List α}
    (hall : ∀ x ∈ xs, p x = true) (hstop : ∀ x ∈ rest.head?, p x = false) :
    (xs ++ rest).dropWhile p = rest := by
  rw [List.dropWhile_append_of_pos hall]
  cases rest with
  | nil => rfl
  | cons x rest => exact List.dropWhile_cons_of_neg (by simp [hstop x rfl])

namespace Text

theorem trimStart_eq_nil_iff {cs : List Char} : trimStart cs = [] ↔ ∀ c ∈ cs, isBlank c = true :=
  List.dropWhile_eq_nil_iff

theorem trim_eq_nil_iff {cs : List Char} : trim cs = [] ↔ ∀ c ∈ cs, isBlank c = true := by
  rw [trim, trimEnd, List.reverse_eq_nil_iff, List.dropWhile_eq_nil_iff]
  constructor
  · intro h
    rw [← trimStart_eq_nil_iff]
    by_contra hne
    have hfirst : isBlank ((trimStart cs).head hne) = false := List.head_dropWhile_not isBlank hne
    rw [h _ (List.mem_reverse.mpr (List.head_mem hne))] at hfirst
    cases hfirst
  · intro h c hc
    exact h c ((List.dropWhile_suffix _).subset (List.mem_reverse.mp hc))

theorem trim_append_ne_nil {cs ds : List Char} (h : trim cs ≠ []) : trim (cs ++ ds) ≠ [] := by
  rw [Ne, trim_eq_nil_iff] at h ⊢
  exact fun hall => h fun c hc => hall c (List.mem_append_left _ hc)

variable {text side : List Char}

/-- A text without the blanks at its two ends. -/
structure Trims (text side : List Char) : Prop where
  around : ∃ before behind, (∀ c ∈ before, isBlank c = true) ∧ (∀ c ∈ behind, isBlank c = true) ∧
    text = before ++ (side ++ behind)
  head : ∀ c ∈ side.head?, isBlank c = false
  last : ∀ c ∈ side.getLast?, isBlank c = false

theorem trimEnd_append {behind : List Char} (hbehind : ∀ c ∈ behind, isBlank c = true)
    (hlast : ∀ c ∈ side.getLast?, isBlank c = false) : trimEnd (side ++ behind) = side := by
  rw [← List.head?_reverse] at hlast
  rw [trimEnd, List.reverse_append, dropWhile_append_of_stops _ hlast, List.reverse_reverse]
  exact fun c hc => hbehind c (List.mem_reverse.mp hc)

theorem Trims.trim_eq (h : Trims text side) : trim text = side := by
  obtain ⟨⟨before, behind, hbefore, hbehind, rfl⟩, hhead, hlast⟩ := h
  cases side with
  | nil =>
    rw [trim_eq_nil_iff]
    intro c hc
    rcases List.mem_append.mp hc with hc | hc
    · exact hbefore c hc
    · exact hbehind c hc
  | cons c side =>
    have hstart : trimStart (before ++ (c :: side ++ behind)) = c :: side ++ behind :=
      dropWhile_append_of_stops hbefore hhead
    rw [trim, hstart, trimEnd_append hbehind hlast]

theorem exists_trimStart (text : List Char) :
    ∃ before, (∀ c ∈ before, isBlank c = true) ∧ text = before ++ trimStart text :=
  ⟨text.takeWhile isBlank, fun _ hc => List.mem_takeWhile_imp hc,
    List.takeWhile_append_dropWhile.symm⟩

theorem exists_trimEnd (text : List Char) :
    ∃ behind, (∀ c ∈ behind, isBlank c = true) ∧ text = trimEnd text ++ behind := by
  obtain ⟨before, hbefore, htext⟩ := exists_trimStart text.reverse
  refine ⟨before.reverse, fun c hc => hbefore c (List.mem_reverse.mp hc), ?_⟩
  exact List.reverse_inj.mp (by rw [htext]; simp [trimEnd, trimStart])

theorem head?_trimStart (text : List Char) : ∀ c ∈ (trimStart text).head?, isBlank c = false := by
  intro c hc
  have hstop := List.head?_dropWhile_not isBlank text
  rwa [← trimStart, hc] at hstop

theorem getLast?_trimEnd (text : List Char) :
    ∀ c ∈ (trimEnd text).getLast?, isBlank c = false := by
  rw [trimEnd, List.getLast?_reverse]
  exact head?_trimStart text.reverse

theorem Trims.subset (h : Trims text side) : side ⊆ text := by
  obtain ⟨⟨before, behind, -, -, rfl⟩, -, -⟩ := h
  intro c hc
  simp [hc]

theorem trims_trim (text : List Char) : Trims text (trim text) := by
  obtain ⟨before, hbefore, hstart⟩ := exists_trimStart text
  obtain ⟨behind, hbehind, hend⟩ := exists_trimEnd (trimStart text)
  refine ⟨⟨before, behind, hbefore, hbehind, hstart.trans (congrArg _ hend)⟩, ?_,
    getLast?_trimEnd _⟩
  intro c hc
  have hhead := head?_trimStart text c
  rw [hend] at hhead
  exact hhead (List.mem_head?_append_of_mem_head? hc)

end Text

end Tilework
