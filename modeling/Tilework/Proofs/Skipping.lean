import Tilework.Proofs.Numeral
import Tilework.Proofs.Readers

/-!
# Values that are skipped

What stands under a key that a record does not know is any value of a document, to any depth. It is
skipped up to the mark that ends the member. A skipped text need not be the text of anything, since
it may hold half of a surrogate pair, and a skipped numeral may be too great for any number.
-/

namespace Tilework.Json

/-- The characters between the quotes of a text. -/
inductive StringBody : List Char → Prop
  | nil : StringBody []
  | plain {c : Char} {cs : List Char} (hquote : c ≠ '"') (hbackslash : c ≠ '\\')
      (hcontrol : ¬ c.toNat < 0x20) (hrest : StringBody cs) : StringBody (c :: cs)
  | letter {letter c : Char} {cs : List Char} (h : escaped? letter = some c)
      (hrest : StringBody cs) : StringBody ('\\' :: letter :: cs)
  | unit {digits cs : List Char} {value : Nat} (h : CodeUnit digits value)
      (hrest : StringBody cs) : StringBody ('\\' :: 'u' :: (digits ++ cs))

/-- Digits without a zero in front. -/
inductive WholePart : List Char → Prop
  | zero : WholePart ['0']
  | digits {c : Char} {ds : List Char} (hc : c.isDigit = true) (hzero : c ≠ '0')
      (hds : IsDigits ds) : WholePart (c :: ds)

inductive FractionPart : List Char → Prop
  | absent : FractionPart []
  | written {ds : List Char} (hds : IsDigits ds) (hne : ds ≠ []) : FractionPart ('.' :: ds)

/-- Numerals without a sign. -/
inductive PlainNumeral : List Char → Prop
  | mk {whole fraction exponent : List Char} {e : Int} (hwhole : WholePart whole)
      (hfraction : FractionPart fraction) (hexponent : Exponent exponent e) :
      PlainNumeral (whole ++ (fraction ++ exponent))

def rawMember (m : List Char × List Element) : List Element :=
  .word ('"' :: (m.1 ++ ['"'])) :: .mark ':' :: m.2

/-- The elements of any value. Its texts are words here, since they are not read. -/
inductive IsValue : List Element → Prop
  | null : IsValue Value.null.elements
  | bool (value : Bool) : IsValue (Value.bool value).elements
  | plain {cs : List Char} (h : PlainNumeral cs) : IsValue [.word cs]
  | negative {cs : List Char} (h : PlainNumeral cs) : IsValue [.word ('-' :: cs)]
  | text {body : List Char} (h : StringBody body) : IsValue [.word ('"' :: (body ++ ['"']))]
  | list {parts : List (List Element)} (h : ∀ part ∈ parts, IsValue part) :
      IsValue (.mark '[' :: separated parts ++ [.mark ']'])
  | object {members : List (List Char × List Element)} (hkeys : ∀ m ∈ members, StringBody m.1)
      (h : ∀ m ∈ members, IsValue m.2) :
      IsValue (.mark '\x7b' :: separated (members.map rawMember) ++ [.mark '\x7d'])

theorem skipString_body {body : List Char} (h : StringBody body) (cs : List Char) :
    skipString .plain (body ++ '"' :: cs) = .ok cs := by
  induction h with
  | nil => rfl
  | plain hquote hbackslash hcontrol _ ih =>
    simpa [skipString, hquote, hbackslash, hcontrol] using ih
  | @letter letter c _ h _ ih =>
    have hu : letter ≠ 'u' := by
      rintro rfl
      have hnone : escaped? 'u' = none := by decide
      rw [hnone] at h
      cases h
    simpa [skipString, hu, h] using ih
  | unit h _ ih =>
    cases h with
    | digits h₃ h₂ h₁ h₀ => simpa [skipString, h₃, h₂, h₁, h₀] using ih

/-- Text with which a numeral cannot go on. -/
def StopsNumeral (rest : List Char) : Prop :=
  ∀ c ∈ rest.head?, c.isDigit = false ∧ c ≠ '.' ∧ c ≠ 'e' ∧ c ≠ 'E'

section numerals

variable {whole fraction exponent ds rest : List Char} {e : Int}

theorem StopsNumeral.stopsDigits (h : StopsNumeral rest) : StopsDigits rest :=
  fun c hc => (h c hc).1

theorem skipDigits_append (hds : IsDigits ds) (hne : ds ≠ []) (hstop : StopsDigits rest) :
    skipDigits (ds ++ rest) = .ok rest := by
  obtain ⟨c, ds, rfl⟩ := List.exists_cons_of_ne_nil hne
  rw [IsDigits, List.forall_mem_cons] at hds
  rw [List.cons_append, skipDigits, if_pos hds.1, dropWhile_append_of_stops hds.2 hstop]

theorem skipExponent?_append (h : Exponent exponent e) (hstop : StopsNumeral rest) :
    skipExponent? (exponent ++ rest) = .ok rest := by
  cases h with
  | absent =>
    cases rest with
    | nil => rfl
    | cons c rest =>
      obtain ⟨-, -, hlower, hupper⟩ := hstop c rfl
      exact if_neg (not_or.mpr ⟨hlower, hupper⟩)
  | @written mark sign ds _ hmark hsign hds hne =>
    have hskip := skipDigits_append hds hne hstop.stopsDigits
    rw [List.cons_append, skipExponent?, if_pos hmark, List.append_assoc]
    cases hsign with
    | absent =>
      obtain ⟨d, ds, rfl⟩ := List.exists_cons_of_ne_nil hne
      have hd := hds d List.mem_cons_self
      rw [List.nil_append, skipExponent.eq_def]
      split
      · next heq =>
        cases heq
        cases hd
      · next heq =>
        cases heq
        cases hd
      · exact hskip
    | plus => exact hskip
    | minus => exact hskip

theorem FractionPart.stopsDigits (h : FractionPart fraction) (hstop : StopsDigits rest) :
    StopsDigits (fraction ++ rest) := by
  cases h with
  | absent => exact hstop
  | written =>
    rintro c ⟨⟩
    rfl

theorem head?_exponent_ne (h : Exponent exponent e) (hstop : StopsNumeral rest) :
    (exponent ++ rest).head? ≠ some '.' := by
  cases h with
  | absent => exact fun hpoint => (hstop '.' hpoint).2.1 rfl
  | written hmark => rcases hmark with rfl | rfl <;> nofun

theorem skipTail_append (hfraction : FractionPart fraction) (hexponent : Exponent exponent e)
    (hstop : StopsNumeral rest) :
    skipNumber.skipTail (fraction ++ (exponent ++ rest)) = .ok rest := by
  have hskip := skipExponent?_append hexponent hstop
  cases hfraction with
  | absent =>
    rw [List.nil_append, skipNumber.skipTail.eq_def]
    split
    · next heq => exact absurd (congrArg List.head? heq) (head?_exponent_ne hexponent hstop)
    · exact hskip
  | written hds hne =>
    have hdigits := skipDigits_append hds hne (hexponent.stopsDigits hstop.stopsDigits)
    simp only [List.cons_append, skipNumber.skipTail, hdigits]
    exact hskip

theorem skipNumber_append {cs : List Char} (h : PlainNumeral cs) (hstop : StopsNumeral rest) :
    skipNumber (cs ++ rest) = .ok rest := by
  obtain @⟨whole, fraction, exponent, e, hwhole, hfraction, hexponent⟩ := h
  have hskip := skipTail_append hfraction hexponent hstop
  have hdigits := hfraction.stopsDigits (hexponent.stopsDigits hstop.stopsDigits)
  simp only [List.append_assoc]
  generalize fraction ++ (exponent ++ rest) = tail at hskip hdigits
  cases hwhole with
  | zero =>
    cases tail with
    | nil => exact hskip
    | cons c tail => rwa [List.singleton_append, skipNumber, if_neg (by simp [hdigits c rfl])]
  | @digits c ds hc hzero hds =>
    have hwhole := skipDigits_append (List.forall_mem_cons.mpr ⟨hc, hds⟩) (List.cons_ne_nil c ds)
      hdigits
    rw [skipNumber.eq_def]
    split
    · next heq => exact absurd (List.head_eq_of_cons_eq heq) hzero
    · rw [hwhole]
      exact hskip

end numerals

theorem Writes.stopsNumeral {fs : List Element} {cs : List Char} (h : Writes fs cs)
    (hends : Ends fs) : StopsNumeral cs := by
  cases h with
  | done => nofun
  | @blank b _ _ hblank =>
    rintro c ⟨⟩
    simp only [isBlank, Bool.or_eq_true, beq_iff_eq] at hblank
    rcases hblank with ((rfl | rfl) | rfl) | rfl <;> decide
  | @element e _ _ _ hspelled =>
    obtain ⟨c, hc, rfl⟩ := hends e rfl
    cases hspelled
    rintro c ⟨⟩
    simp only [List.mem_cons, List.not_mem_nil, or_false] at hc
    rcases hc with rfl | rfl | rfl <;> decide

theorem PlainNumeral.exists_cons {cs : List Char} (h : PlainNumeral cs) :
    ∃ c rest, cs = c :: rest ∧ c.isDigit = true := by
  obtain ⟨hwhole, -, -⟩ := h
  cases hwhole with
  | zero => exact ⟨'0', _, rfl, rfl⟩
  | digits hc => exact ⟨_, _, rfl, hc⟩

theorem isBlank_of_isDigit {c : Char} (hc : c.isDigit = true) : isBlank c = false := by
  by_contra hblank
  simp only [isBlank, Bool.not_eq_false, Bool.or_eq_true, beq_iff_eq] at hblank
  rcases hblank with ((rfl | rfl) | rfl) | rfl <;> cases hc

theorem IsValue.starts {es : List Element} (h : IsValue es) : Starts es := by
  cases h with
  | null => exact ⟨'n', rfl, rfl, by decide⟩
  | bool value =>
    cases value with
    | true => exact ⟨'t', rfl, rfl, by decide⟩
    | false => exact ⟨'f', rfl, rfl, by decide⟩
  | plain h =>
    obtain ⟨c, rest, rfl, hc⟩ := h.exists_cons
    refine ⟨c, rfl, isBlank_of_isDigit hc, ?_⟩
    rintro rfl
    cases hc
  | negative => exact ⟨'-', rfl, rfl, by decide⟩
  | text => exact ⟨'"', rfl, rfl, by decide⟩
  | list => exact ⟨'[', rfl, rfl, by decide⟩
  | object => exact ⟨'\x7b', rfl, rfl, by decide⟩

/-- The elements are skipped, with rounds enough for their marks. -/
def Skips (es : List Element) : Prop :=
  ∀ {rounds : Nat} {fs : List Element} {cs : List Char}, es.countP Element.isMark < rounds →
    Ends fs → Writes (es ++ fs) cs → ∃ rest, skipValue rounds cs = .ok rest ∧ Writes fs rest

theorem countP_mark (c : Char) (es : List Element) :
    (Element.mark c :: es).countP Element.isMark = es.countP Element.isMark + 1 :=
  List.countP_cons_of_pos rfl

theorem countP_word (letters : List Char) (es : List Element) :
    (Element.word letters :: es).countP Element.isMark = es.countP Element.isMark :=
  List.countP_cons_of_neg Bool.false_ne_true

theorem countP_upcoming_le (parts : List (List Element)) :
    (upcoming false parts).countP Element.isMark ≤
      (separated parts).countP Element.isMark + 1 := by
  cases parts with
  | nil => exact Nat.zero_le _
  | cons es parts =>
    rw [upcoming, List.flatMap_cons, List.cons_append, countP_mark, separated]

section loops

variable {fs : List Element} {cs : List Char} {rounds : Nat} {first : Bool}

theorem skipItems_close (first : Bool) (hrounds : 0 < rounds) (h : Writes (.mark ']' :: fs) cs) :
    ∃ rest, skipItems rounds first cs = .ok rest ∧ Writes fs rest := by
  obtain ⟨rounds, rfl⟩ := Nat.exists_eq_add_one_of_ne_zero (Nat.ne_zero_of_lt hrounds)
  obtain ⟨cs', hnone, hclose⟩ := nextItem_close first h
  obtain ⟨rest, hclosing, hrest⟩ := closing_eq_ok rfl hclose
  exact ⟨rest, by simp [skipItems, hnone, hclosing, bind, Except.bind], hrest⟩

theorem skipItems_eq_ok (first : Bool) {parts : List (List Element)}
    (hstarts : ∀ part ∈ parts, Starts part) (hskips : ∀ part ∈ parts, Skips part)
    (hrounds : (upcoming false parts).countP Element.isMark < rounds)
    (h : Writes (upcoming first parts ++ .mark ']' :: fs) cs) :
    ∃ rest, skipItems rounds first cs = .ok rest ∧ Writes fs rest := by
  induction parts generalizing rounds first cs with
  | nil =>
    rw [upcoming_nil] at h
    exact skipItems_close first hrounds h
  | cons part parts ih =>
    rw [List.forall_mem_cons] at hstarts hskips
    obtain ⟨rounds, rfl⟩ := Nat.exists_eq_add_one_of_ne_zero (Nat.ne_zero_of_lt hrounds)
    rw [upcoming, List.flatMap_cons, List.countP_append, countP_mark] at hrounds
    have hpart : part.countP Element.isMark < rounds := by omega
    have hparts : (upcoming false parts).countP Element.isMark < rounds := by
      rw [upcoming]
      omega
    obtain ⟨cs', hmore, hitem⟩ := nextItem_part hstarts.1 h
    obtain ⟨middle, hskip, hmiddle⟩ := hskips.1 hpart (ends_upcoming (by decide) parts fs) hitem
    obtain ⟨rest, hloop, hrest⟩ := ih false hstarts.2 hskips.2 hparts hmiddle
    exact ⟨rest, by simp [skipItems, hmore, hskip, hloop, bind, Except.bind], hrest⟩

theorem skipString_spelled {body spelling : List Char} (hbody : StringBody body)
    (h : (Element.word ('"' :: (body ++ ['"']))).Spelled ('"' :: spelling)) (rest : List Char) :
    skipString .plain (spelling ++ rest) = .ok rest := by
  obtain rfl := List.tail_eq_of_cons_eq h
  rw [List.append_assoc]
  exact skipString_body hbody rest

theorem colon_eq_ok {es : List Element} (h : Writes (.mark ':' :: es) cs) :
    ∃ rest, colon cs = .ok rest ∧ Writes es rest := by
  obtain ⟨rest, hskip, hes⟩ := h.mark rfl
  exact ⟨rest, by simp [colon, hskip], hes⟩

theorem skipMembers_close (first : Bool) (hrounds : 0 < rounds)
    (h : Writes (.mark '\x7d' :: fs) cs) :
    ∃ rest, skipMembers rounds first cs = .ok rest ∧ Writes fs rest := by
  obtain ⟨rounds, rfl⟩ := Nat.exists_eq_add_one_of_ne_zero (Nat.ne_zero_of_lt hrounds)
  obtain ⟨cs', hnone, hclose⟩ := nextMember_close first h
  obtain ⟨rest, hclosing, hrest⟩ := closing_eq_ok rfl hclose
  exact ⟨rest, by simp [skipMembers, hnone, hclosing, bind, Except.bind], hrest⟩

theorem skipMembers_eq_ok (first : Bool) {members : List (List Char × List Element)}
    (hkeys : ∀ m ∈ members, StringBody m.1) (hskips : ∀ m ∈ members, Skips m.2)
    (hrounds : (upcoming false (members.map rawMember)).countP Element.isMark < rounds)
    (h : Writes (upcoming first (members.map rawMember) ++ .mark '\x7d' :: fs) cs) :
    ∃ rest, skipMembers rounds first cs = .ok rest ∧ Writes fs rest := by
  induction members generalizing rounds first cs with
  | nil =>
    rw [List.map_nil, upcoming_nil] at h
    exact skipMembers_close first hrounds h
  | cons m members ih =>
    rw [List.forall_mem_cons] at hkeys hskips
    obtain ⟨rounds, rfl⟩ := Nat.exists_eq_add_one_of_ne_zero (Nat.ne_zero_of_lt hrounds)
    rw [List.map_cons, upcoming, List.flatMap_cons, List.countP_append, countP_mark, rawMember,
      countP_word, countP_mark] at hrounds
    have hvalue : m.2.countP Element.isMark < rounds := by omega
    have hmembers : (upcoming false (members.map rawMember)).countP Element.isMark < rounds := by
      rw [upcoming]
      omega
    obtain ⟨spelling, cs', hmore, hspelled, hbehind⟩ := nextMember_part rfl h
    have hkey := skipString_spelled hkeys.1 hspelled cs'
    obtain ⟨cs'', hcolon, hwrites⟩ := colon_eq_ok hbehind
    obtain ⟨middle, hskip, hmiddle⟩ :=
      hskips.1 hvalue (ends_upcoming (by decide) (members.map rawMember) fs) hwrites
    obtain ⟨rest, hloop, hrest⟩ := ih false hkeys.2 hskips.2 hmembers hmiddle
    refine ⟨rest, ?_, hrest⟩
    simp [skipMembers, hmore, hkey, hcolon, hskip, hloop, bind, Except.bind]

end loops

theorem skips_word (c : Char) (letters : List Char) (hblank : isBlank c = false)
    (hskip : ∀ {rounds : Nat} {cs rest : List Char}, StopsNumeral rest →
      skipBlanks cs = c :: (letters ++ rest) → skipValue (rounds + 1) cs = .ok rest) :
    Skips [.word (c :: letters)] := by
  intro rounds fs cs hrounds hends h
  obtain ⟨rounds, rfl⟩ := Nat.exists_eq_add_one_of_ne_zero (Nat.ne_zero_of_lt hrounds)
  obtain ⟨rest, hcs, hrest⟩ := h.word hblank
  exact ⟨rest, hskip (hrest.stopsNumeral hends) hcs, hrest⟩

theorem skipValue_digit {c : Char} {cs rest : List Char} (hc : c.isDigit = true)
    (hcs : skipBlanks cs = c :: rest) (rounds : Nat) :
    skipValue (rounds + 1) cs = skipNumber (c :: rest) := by
  rw [skipValue, hcs]
  split <;> simp_all

theorem IsValue.skips {es : List Element} (h : IsValue es) : Skips es := by
  induction h with
  | null => exact skips_word 'n' "ull".toList rfl fun _ hcs => by simp [skipValue, hcs, keyword]
  | bool value =>
    cases value with
    | true => exact skips_word 't' "rue".toList rfl fun _ hcs => by simp [skipValue, hcs, keyword]
    | false =>
      exact skips_word 'f' "alse".toList rfl fun _ hcs => by simp [skipValue, hcs, keyword]
  | @plain cs h =>
    obtain ⟨c, letters, rfl, hc⟩ := h.exists_cons
    refine skips_word c letters (isBlank_of_isDigit hc) fun hstop hcs => ?_
    rw [skipValue_digit hc hcs]
    exact skipNumber_append h hstop
  | negative h =>
    refine skips_word '-' _ rfl fun hstop hcs => ?_
    simpa [skipValue, hcs] using skipNumber_append h hstop
  | text h =>
    refine skips_word '"' _ rfl fun {_ _ rest} _ hcs => ?_
    simpa [skipValue, hcs] using skipString_body h rest
  | @list parts hparts ih =>
    intro rounds fs cs hrounds hends h
    obtain ⟨rounds, rfl⟩ := Nat.exists_eq_add_one_of_ne_zero (Nat.ne_zero_of_lt hrounds)
    simp only [List.cons_append, List.append_assoc, List.nil_append] at h
    simp only [List.cons_append, countP_mark, List.countP_append] at hrounds
    -- Each round spends a mark, and the opening one is spent here.
    have hloop : (upcoming false parts).countP Element.isMark < rounds := by
      have hcommas := countP_upcoming_le parts
      omega
    obtain ⟨cs', hskip, hbody⟩ := h.mark rfl
    obtain ⟨rest, hitems, hrest⟩ :=
      skipItems_eq_ok true (fun part hpart => (hparts part hpart).starts) ih hloop hbody
    exact ⟨rest, by simp [skipValue, hskip, hitems], hrest⟩
  | @object members hkeys hvalues ih =>
    intro rounds fs cs hrounds hends h
    obtain ⟨rounds, rfl⟩ := Nat.exists_eq_add_one_of_ne_zero (Nat.ne_zero_of_lt hrounds)
    simp only [List.cons_append, List.append_assoc, List.nil_append] at h
    simp only [List.cons_append, countP_mark, List.countP_append] at hrounds
    have hloop : (upcoming false (members.map rawMember)).countP Element.isMark < rounds := by
      have hcommas := countP_upcoming_le (members.map rawMember)
      omega
    obtain ⟨cs', hskip, hbody⟩ := h.mark rfl
    obtain ⟨rest, hmembers, hrest⟩ := skipMembers_eq_ok true hkeys ih hloop hbody
    exact ⟨rest, by simp [skipValue, hskip, hmembers], hrest⟩

theorem IsValue.reads_skipField {σ : Type} {es : List Element} (h : IsValue es) (record : σ) :
    Reads (skipField record) (.mark ':' :: es) record := by
  intro fs cs hends hwrites
  rw [List.cons_append] at hwrites
  obtain ⟨cs', hcolon, hvalue⟩ := colon_eq_ok hwrites
  have hrounds : es.countP Element.isMark < 2 * cs'.length + 2 := by
    have hmarks := hvalue.countP_isMark_le
    rw [List.countP_append] at hmarks
    omega
  obtain ⟨rest, hskip, hrest⟩ := h.skips hrounds hends hvalue
  refine ⟨rest, ?_, hrest⟩
  simp [skipField, skip, hcolon, hskip, bind, Except.bind, pure, Except.pure]

end Tilework.Json
