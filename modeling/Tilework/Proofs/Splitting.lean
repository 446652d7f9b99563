import Mathlib.Data.List.Basic
import Tilework.Text.Basic

/-!
# Splitting

A text is a part without separators, or such a part, a separator and a shorter text. So splitting at
every separator is determined by two equations, and no part holds a separator.
-/

namespace Tilework.Text

variable {sep : Char} {cs part before behind : List Char}

theorem splitOn_append_sep (xs ys : List Char) :
    splitOn sep (xs ++ sep :: ys) = splitOn sep xs ++ splitOn sep ys := by
  induction xs with
  | nil => exact splitOn_sep sep ys
  | cons c xs ih =>
    simp only [List.cons_append, splitOn, ih]
    split
    · rfl
    · cases hparts : splitOn sep xs with
      | nil => exact absurd hparts (splitOn_ne_nil sep xs)
      | cons part parts => rfl

theorem splitOn_of_notMem (h : sep ∉ cs) : splitOn sep cs = [cs] := by
  induction cs with
  | nil => rfl
  | cons c cs ih =>
    have hne : c ≠ sep := fun heq => h (heq ▸ List.mem_cons_self)
    have hrest : sep ∉ cs := fun hmem => h (List.mem_cons_of_mem c hmem)
    rw [splitOn, if_neg hne, ih hrest]

theorem separated_induction (sep : Char) {P : List Char → Prop} (last : ∀ part, sep ∉ part → P part)
    (more : ∀ part rest, sep ∉ part → P rest → P (part ++ sep :: rest)) (cs : List Char) :
    P cs := by
  induction hn : cs.length using Nat.strongRecOn generalizing cs with
  | ind n ih =>
    by_cases hsep : sep ∈ cs
    · obtain ⟨part, rest, rfl, hpart⟩ := List.eq_append_cons_of_mem hsep
      refine more part rest hpart (ih _ ?_ rest rfl)
      rw [← hn, List.length_append, List.length_cons]
      omega
    · exact last cs hsep

theorem notMem_of_mem_splitOn (h : part ∈ splitOn sep cs) : sep ∉ part := by
  induction cs using separated_induction sep with
  | last cs hcs =>
    rw [splitOn_of_notMem hcs, List.mem_singleton] at h
    exact h ▸ hcs
  | more first rest hfirst ih =>
    rw [splitOn_append_sep, splitOn_of_notMem hfirst] at h
    rcases List.mem_cons.mp h with rfl | h
    · exact hfirst
    · exact ih h

theorem cutAt?_append (h : sep ∉ before) :
    cutAt? sep (before ++ sep :: behind) = some (before, behind) := by
  induction before with
  | nil => exact cutAt?_sep sep behind
  | cons c before ih =>
    rw [List.mem_cons, not_or] at h
    rw [List.cons_append, cutAt?, if_neg (Ne.symm h.1), ih h.2]
    rfl

theorem cutAt?_of_notMem (h : sep ∉ cs) : cutAt? sep cs = none := by
  induction cs with
  | nil => rfl
  | cons c cs ih =>
    rw [List.mem_cons, not_or] at h
    rw [cutAt?, if_neg (Ne.symm h.1), ih h.2]
    rfl

end Tilework.Text
