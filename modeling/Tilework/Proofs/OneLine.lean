import Tilework.Proofs.Frame

/-!
# Texts of one line

Numbers and quoted texts hold no line end. The tokens without a meaning are brackets and integers,
so the message of every warning that a run gives is one line, whether the run fails or not.
-/

namespace Tilework

def OneLine (text : String) : Prop := '\n' ∉ text.toList

instance (text : String) : Decidable (OneLine text) := inferInstanceAs (Decidable (_ ∉ _))

@[simp] theorem oneLine_append {a b : String} : OneLine (a ++ b) ↔ OneLine a ∧ OneLine b := by
  simp [OneLine]

theorem oneLine_join {texts : List String} (h : ∀ text ∈ texts, OneLine text) :
    OneLine (String.join texts) := by
  simpa [OneLine, String.toList_join] using h

theorem newline_notMem_toDigits {base : Nat} (hbase : 1 < base) (hsmall : base ≤ 16) (n : Nat) :
    '\n' ∉ Nat.toDigits base n := by
  have hdigit : ∀ d < 16, '\n' ≠ Nat.digitChar d := by decide
  induction n using Nat.strongRecOn with
  | ind n ih =>
    by_cases hlt : n < base
    · rw [Nat.toDigits_of_lt_base hlt, List.mem_singleton]
      exact hdigit n (by omega)
    · have hrest := ih (n / base) (Nat.div_lt_self (by omega) hbase)
      have hlast : n % base < 16 :=
        Nat.lt_of_lt_of_le (Nat.mod_lt n (Nat.lt_of_succ_lt hbase)) hsmall
      rw [Nat.toDigits_of_base_le hbase (Nat.not_lt.mp hlt), List.mem_append, List.mem_singleton]
      exact not_or.mpr ⟨hrest, hdigit _ hlast⟩

theorem oneLine_toString (n : Nat) : OneLine (toString n) := by
  rw [OneLine, Nat.toString_eq_ofList_toDigits, String.toList_ofList]
  exact newline_notMem_toDigits (by decide) (by decide) n

theorem newline_notMem_showChar (c : Char) : '\n' ∉ Text.showChar c := by
  have hdigits := newline_notMem_toDigits (by decide) (Nat.le_refl 16) c.toNat
  unfold Text.showChar
  by_cases hend : c = '\n'
  · subst hend
    decide
  · split_ifs <;> simp [hdigits, Ne.symm hend]

theorem oneLine_quoted (text : String) : OneLine (Text.quoted text) := by
  simp [OneLine, Text.quoted, newline_notMem_showChar]

theorem oneLine_message {warning : Warning}
    (h : ∀ token, warning = .strayToken token → OneLine token.text) : OneLine warning.message := by
  cases warning with
  | strayToken token =>
    have htoken := h token rfl
    simp only [Warning.message, oneLine_append]
    exact ⟨⟨by decide, htoken⟩, by decide⟩
  | unbalancedClose | unclosedOpen | emptyGroup => decide
  | leftoverInGroup count | leftover count =>
    exact oneLine_append.mpr ⟨oneLine_toString count, by decide⟩

namespace Machine

section finish

variable {σ : Type} {m : Machine σ}

/-- All warnings so far are lines. -/
def WarnsInLines (m : Machine σ) : Prop := ∀ d ∈ m.diagnostics, OneLine d.warning.message

theorem WarnsInLines.warn (h : m.WarnsInLines) {warning : Warning}
    (hwarning : OneLine warning.message) (span : Span) : (m.warn warning span).WarnsInLines := by
  intro d hd
  rcases List.mem_append.mp hd with hd | hd
  · exact h d hd
  · rw [List.mem_singleton.mp hd]
    exact hwarning

theorem WarnsInLines.closeGroup (h : m.WarnsInLines) (span : Span) :
    (m.closeGroup span).2.WarnsInLines := by
  refine Attempt.andThen_preserves (P := WarnsInLines) h fun u drained hdrained => ?_
  cases drained.frames.leave? with
  | none =>
    have hmessage : OneLine Warning.unbalancedClose.message := by decide
    exact hdrained.warn hmessage span
  | some left =>
    obtain ⟨group, frames⟩ := left
    simp only [foldl_warn]
    intro d hd
    rcases List.mem_append.mp hd with hd | hd
    · exact hdrained d hd
    · obtain ⟨warning, hwarning, rfl⟩ := List.mem_map.mp hd
      refine oneLine_message ?_
      rintro token rfl
      rw [Frame.warnings] at hwarning
      split at hwarning <;> simp at hwarning

theorem WarnsInLines.closeOpen (h : m.WarnsInLines) (stop : Span) (n : Nat) :
    (m.closeOpen stop n).2.WarnsInLines := by
  induction n generalizing m with
  | zero => exact h
  | succ n ih =>
    have hmessage : OneLine Warning.unclosedOpen.message := by decide
    have hgroup := (h.warn hmessage m.frames.head.openedAt).closeGroup stop
    exact Attempt.andThen_preserves (P := WarnsInLines) hgroup fun u closed hclosed => ih hclosed

theorem WarnsInLines.result (h : m.WarnsInLines) (stop : Span) :
    (m.result stop).2.WarnsInLines := by
  rw [Machine.result]
  split
  · exact h
  · next tile rest _ =>
    by_cases hrest : rest.isEmpty
    · simp only [if_pos hrest]
      exact h
    · have hmessage : OneLine (Warning.leftover rest.length).message :=
        oneLine_message (by rintro _ ⟨⟩)
      simp only [if_neg hrest]
      exact h.warn hmessage stop

theorem WarnsInLines.finish (h : m.WarnsInLines) (stop : Span) :
    (m.finish stop).2.WarnsInLines := by
  refine Attempt.andThen_preserves (P := WarnsInLines) (h.closeOpen stop _)
    fun u closed hclosed => ?_
  exact Attempt.andThen_preserves (P := WarnsInLines) hclosed fun u drained hdrained =>
    hdrained.result stop

end finish

variable {σ : Type} [TileSource σ] {m : Machine σ}

theorem WarnsInLines.step (h : m.WarnsInLines) (lexeme : Lexeme) :
    (m.step lexeme).2.WarnsInLines := by
  rcases lexeme with ⟨token, span⟩
  cases token with
  | tile name cls param =>
    refine Attempt.andThen_preserves (P := WarnsInLines) ?_ fun tile loaded hloaded => hloaded
    rw [load]
    split
    · exact h
    · split <;> exact h
  | closeParen => exact h.closeGroup span
  | operator op | openParen => exact h
  | openBracket =>
    have hmessage : OneLine (Warning.strayToken .openBracket).message := by decide
    exact h.warn hmessage span
  | closeBracket =>
    have hmessage : OneLine (Warning.strayToken .closeBracket).message := by decide
    exact h.warn hmessage span
  | integer value =>
    refine h.warn (oneLine_message ?_) span
    rintro _ ⟨⟩
    exact oneLine_toString value

/-- A run warns in lines, also if it fails. -/
theorem WarnsInLines.run (h : m.WarnsInLines) (lexemes : List Lexeme) (stop : Nat) :
    (m.run lexemes stop).2.WarnsInLines := by
  have hsteps : (m.steps lexemes).2.WarnsInLines := by
    induction lexemes generalizing m with
    | nil => exact h
    | cons lexeme lexemes ih =>
      exact Attempt.andThen_preserves (P := WarnsInLines) (h.step lexeme) fun u stepped hstepped =>
        ih hstepped
  exact Attempt.andThen_preserves (P := WarnsInLines) hsteps fun u read hread =>
    hread.finish (.point stop)

end Machine

end Tilework
