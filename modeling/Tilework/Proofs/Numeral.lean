import Mathlib.Data.Int.Notation
import Mathlib.Data.Nat.Notation
import Mathlib.Tactic.Tauto
import Tilework.Number.Decimal
import Tilework.Proofs.Trimming

/-!
# The grammar of decimal numerals

A numeral is digits with at most one point among or beside them, then possibly an exponent, and
possibly a sign in front. The relations below say which texts are numerals and which decimals they
stand for; the readers accept these texts and find these decimals.
-/

namespace Tilework

/-- A run of digits, possibly empty. -/
def IsDigits (ds : List Char) : Prop := ∀ c ∈ ds, c.isDigit = true

/-- An optional sign, and whether it is a minus. -/
inductive Sign : List Char → Bool → Prop
  | absent : Sign [] false
  | plus : Sign ['+'] false
  | minus : Sign ['-'] true

/-- An optional power of ten. -/
inductive Exponent : List Char → ℤ → Prop
  | absent : Exponent [] 0
  | written {mark : Char} {sign ds : List Char} {negative : Bool}
      (hmark : mark = 'e' ∨ mark = 'E') (hsign : Sign sign negative) (hds : IsDigits ds)
      (hne : ds ≠ []) :
      Exponent (mark :: (sign ++ ds))
        (if negative then -(Nat.ofDigitChars 10 ds 0 : ℤ) else Nat.ofDigitChars 10 ds 0)

/-- Digits with or without a point, the number that all of them write, and how many of them stand
behind the point. -/
inductive Mantissa : List Char → ℕ → ℕ → Prop
  | whole {ds : List Char} (hds : IsDigits ds) (hne : ds ≠ []) :
      Mantissa ds (Nat.ofDigitChars 10 ds 0) 0
  | point {ds places : List Char} (hds : IsDigits ds) (hplaces : IsDigits places)
      (hne : ds ++ places ≠ []) :
      Mantissa (ds ++ '.' :: places) (Nat.ofDigitChars 10 (ds ++ places) 0) places.length

/-- An unsigned numeral and its decimal. -/
inductive Numeral : List Char → Decimal → Prop
  | mk {mantissa exponent : List Char} {digits places : ℕ} {e : ℤ}
      (hmantissa : Mantissa mantissa digits places) (hexponent : Exponent exponent e) :
      Numeral (mantissa ++ exponent) ⟨digits, e - places⟩

/-- A numeral with an optional sign, and the value nearest to it. -/
inductive SignedNumeral : List Char → Binary64 → Decimal → Prop
  | mk {sign cs : List Char} {negative : Bool} {d : Decimal} (hsign : Sign sign negative)
      (hcs : Numeral cs d) : SignedNumeral (sign ++ cs) ⟨negative, d.magnitude⟩ d

/-- Text that goes on with something else than a digit. -/
def StopsDigits (rest : List Char) : Prop := ∀ c ∈ rest.head?, c.isDigit = false

variable {cs : List Char}

theorem isDigits_takeWhile (cs : List Char) : IsDigits (cs.takeWhile Char.isDigit) :=
  fun _ h => List.mem_takeWhile_imp h

theorem Exponent.stopsDigits {rest : List Char} {e : ℤ} (h : Exponent cs e)
    (hstop : StopsDigits rest) : StopsDigits (cs ++ rest) := by
  cases h with
  | absent => exact hstop
  | written hmark =>
    rintro c ⟨⟩
    rcases hmark with rfl | rfl <;> rfl

theorem Numeral.exists_head? {d : Decimal} (h : Numeral cs d) :
    ∃ c, cs.head? = some c ∧ (c.isDigit = true ∨ c = '.') := by
  obtain ⟨hmantissa, -⟩ := h
  cases hmantissa with
  | @whole ds hds hne =>
    obtain ⟨c, ds, rfl⟩ := List.exists_cons_of_ne_nil hne
    exact ⟨c, rfl, Or.inl (hds c List.mem_cons_self)⟩
  | @point ds _ hds =>
    cases ds with
    | nil => exact ⟨'.', rfl, Or.inr rfl⟩
    | cons c ds => exact ⟨c, rfl, Or.inl (hds c List.mem_cons_self)⟩

namespace Decimal

theorem digits?_eq_some_iff {n : ℕ} :
    digits? cs = some n ↔ IsDigits cs ∧ cs ≠ [] ∧ Nat.ofDigitChars 10 cs 0 = n := by
  simp only [digits?, Option.ite_none_right_eq_some, Option.some.injEq, List.all_eq_true, IsDigits]
  tauto

theorem exponent?_eq_some_iff {e : ℤ} : exponent? cs = some e ↔ Exponent cs e := by
  constructor
  · intro h
    cases cs with
    | nil =>
      cases h
      exact .absent
    | cons mark cs =>
      rw [exponent?.eq_def] at h
      obtain ⟨hmark, h⟩ := Option.ite_none_right_eq_some.mp h
      split at h
      all_goals
        obtain ⟨n, hn, rfl⟩ := Option.map_eq_some_iff.mp h
        obtain ⟨hds, hne, rfl⟩ := digits?_eq_some_iff.mp hn
      · exact .written hmark .plus hds hne
      · exact .written hmark .minus hds hne
      · exact .written hmark .absent hds hne
  · intro h
    cases h with
    | absent => rfl
    | @written _ _ ds _ hmark hsign hds hne =>
      have hread : digits? ds = some _ := digits?_eq_some_iff.mpr ⟨hds, hne, rfl⟩
      rw [exponent?.eq_def]
      refine (if_pos hmark).trans ?_
      cases hsign with
      | absent =>
        rw [List.nil_append]
        split
        · cases hds '+' List.mem_cons_self
        · cases hds '-' List.mem_cons_self
        · rw [hread]
          rfl
      | plus => exact congrArg (Option.map Int.ofNat) hread
      | minus => exact congrArg (Option.map fun n => -Int.ofNat n) hread

theorem fraction_cases (cs : List Char) :
    (∃ places rest, IsDigits places ∧ cs = '.' :: (places ++ rest) ∧
      fraction cs = (places, rest)) ∨ fraction cs = ([], cs) := by
  rw [fraction.eq_def]
  split
  · next cs =>
    have hcs := List.takeWhile_append_dropWhile (p := Char.isDigit) (l := cs)
    exact Or.inl ⟨_, _, isDigits_takeWhile cs, by rw [hcs], rfl⟩
  · exact Or.inr rfl

theorem fraction_of_exponent {e : ℤ} (h : Exponent cs e) : fraction cs = ([], cs) := by
  cases h with
  | absent => rfl
  | written hmark => rcases hmark with rfl | rfl <;> rfl

theorem read?_eq_some_iff {d : Decimal} : read? cs = some d ↔ Numeral cs d := by
  constructor
  · intro h
    have hcs := List.takeWhile_append_dropWhile (p := Char.isDigit) (l := cs)
    have hds := isDigits_takeWhile cs
    simp only [read?] at h
    generalize cs.takeWhile Char.isDigit = ds at h hcs hds
    generalize cs.dropWhile Char.isDigit = rest at h hcs
    obtain ⟨hne, h⟩ := Option.ite_none_left_eq_some.mp h
    obtain ⟨e, he, rfl⟩ := Option.map_eq_some_iff.mp h
    rw [exponent?_eq_some_iff] at he
    rw [← hcs]
    rcases fraction_cases rest with ⟨places, tail, hplaces, rfl, hfraction⟩ | hfraction
    · rw [hfraction] at he hne ⊢
      have hpoint : Mantissa (ds ++ '.' :: places) _ _ := .point hds hplaces (by simpa using hne)
      simpa using Numeral.mk hpoint he
    · rw [hfraction] at he hne ⊢
      have hwhole : Mantissa ds _ _ := .whole hds (by simpa using hne)
      simpa using Numeral.mk hwhole he
  · rintro @⟨mantissa, exponent, digits, places, e, hmantissa, hexponent⟩
    have hread := exponent?_eq_some_iff.mpr hexponent
    have hnil : StopsDigits [] := nofun
    have hstop : StopsDigits exponent := by simpa using hexponent.stopsDigits hnil
    cases hmantissa with
    | @whole ds hds hne =>
      simp only [read?, takeWhile_append_of_stops hds hstop, dropWhile_append_of_stops hds hstop]
      rw [fraction_of_exponent hexponent]
      simp [hne, hread]
    | @point ds places hds hplaces hne =>
      have hpoint : StopsDigits ('.' :: (places ++ exponent)) := by
        rintro c ⟨⟩
        rfl
      simp only [read?, List.append_assoc, List.cons_append, takeWhile_append_of_stops hds hpoint,
        dropWhile_append_of_stops hds hpoint]
      simp only [fraction, takeWhile_append_of_stops hplaces hstop,
        dropWhile_append_of_stops hplaces hstop]
      rw [if_neg (by simpa using hne), hread]
      rfl

theorem readSigned?_eq_some_iff {v : Binary64} :
    readSigned? cs = some v ↔ ∃ d, SignedNumeral cs v d := by
  constructor
  · intro h
    rw [readSigned?.eq_def] at h
    split at h
    all_goals
      obtain ⟨d, hd, rfl⟩ := Option.map_eq_some_iff.mp h
      rw [read?_eq_some_iff] at hd
    · exact ⟨d, .mk .minus hd⟩
    · exact ⟨d, .mk .plus hd⟩
    · exact ⟨d, .mk .absent hd⟩
  · rintro ⟨d, hsign, hcs⟩
    have hread := read?_eq_some_iff.mpr hcs
    cases hsign with
    | absent =>
      rw [List.nil_append, readSigned?.eq_def]
      obtain ⟨c, hc, hstart⟩ := hcs.exists_head?
      split
      · cases hc
        simp at hstart
      · cases hc
        simp at hstart
      · rw [hread]
        rfl
    | plus => exact congrArg (Option.map fun d => (⟨false, d.magnitude⟩ : Binary64)) hread
    | minus => exact congrArg (Option.map fun d => (⟨true, d.magnitude⟩ : Binary64)) hread

end Decimal

end Tilework
