import Mathlib.Data.List.Forall2
import Tilework.Proofs.Spelling

/-!
# Readers of documents

A reader reads elements when it takes them from every way of writing them, whatever follows where a
value has ended, and leaves a way of writing what follows. Readers of lists and records read the
elements of their parts, and the loops over items and members have rounds enough, since every part
has a mark of its own.
-/

namespace Tilework.Json

variable {α β σ : Type}

/-- What follows a value: nothing, or a mark that ends an item or a member. -/
def Ends (fs : List Element) : Prop := ∀ e ∈ fs.head?, ∃ c ∈ [',', ']', '\x7d'], e = .mark c

theorem ends_nil : Ends [] := nofun

theorem ends_mark {c : Char} (hc : c ∈ [',', ']', '\x7d']) (fs : List Element) :
    Ends (.mark c :: fs) := by
  rintro e ⟨⟩
  exact ⟨c, hc, rfl⟩

/-- The parts of a list or an object from some part on. A comma stands before the first of them when
it is not the first of all. -/
def upcoming : (first : Bool) → List (List Element) → List Element
  | true, parts => separated parts
  | false, parts => parts.flatMap (.mark ',' :: ·)

@[simp] theorem upcoming_nil (first : Bool) : upcoming first [] = [] := by
  cases first <;> rfl

theorem ends_upcoming {c : Char} (hc : c ∈ [',', ']', '\x7d']) (parts : List (List Element))
    (fs : List Element) : Ends (upcoming false parts ++ .mark c :: fs) := by
  cases parts with
  | nil => exact ends_mark hc fs
  | cons es parts => exact ends_mark (by decide) _

def Reads (read : Reader α) (es : List Element) (value : α) : Prop :=
  ∀ fs cs, Ends fs → Writes (es ++ fs) cs → ∃ rest, read cs = .ok (value, rest) ∧ Writes fs rest

theorem reads_text (value : String) : Reads readText [.text value] value := by
  intro fs cs _ h
  obtain ⟨cs', hskip, rest, hrest, hfs⟩ := h.text
  refine ⟨rest, ?_, hfs⟩
  simp [readText, hskip, hrest, Except.map]

theorem reads_bool (value : Bool) : Reads readBool (Value.bool value).elements value := by
  intro fs cs _ h
  cases value with
  | true =>
    have hword : Writes (.word ('t' :: "rue".toList) :: fs) cs := h
    obtain ⟨rest, hskip, hfs⟩ := hword.word rfl
    exact ⟨rest, by simp [readBool, hskip, keyword, Except.map], hfs⟩
  | false =>
    have hword : Writes (.word ('f' :: "alse".toList) :: fs) cs := h
    obtain ⟨rest, hskip, hfs⟩ := hword.word rfl
    exact ⟨rest, by simp [readBool, hskip, keyword, Except.map], hfs⟩

/-- The elements of a value, and not the end of a list. -/
def Starts (es : List Element) : Prop :=
  ∃ c, initial? es = some c ∧ isBlank c = false ∧ c ≠ ']'

/-- The elements of a value other than null. -/
def Opens (es : List Element) : Prop :=
  ∃ c, initial? es = some c ∧ isBlank c = false ∧ c ≠ ']' ∧ c ≠ 'n'

theorem Opens.starts {es : List Element} (h : Opens es) : Starts es := by
  obtain ⟨c, hinitial, hblank, hclose, -⟩ := h
  exact ⟨c, hinitial, hblank, hclose⟩

theorem initial?_append {es : List Element} {c : Char} (h : initial? es = some c)
    (fs : List Element) : initial? (es ++ fs) = some c := by
  cases es with
  | nil => cases h
  | cons e es => exact h

theorem reads_some {read : Reader α} {es : List Element} {value : α} (hread : Reads read es value)
    (hopens : Opens es) : Reads (readOptional read) es (some value) := by
  intro fs cs hends h
  obtain ⟨c, hinitial, hblank, -, hnull⟩ := hopens
  obtain ⟨cs', hskip, hstrip⟩ := h.strip (initial?_append hinitial fs) hblank
  obtain ⟨rest, hvalue, hfs⟩ := hread fs _ hends hstrip
  refine ⟨rest, ?_, hfs⟩
  simp [readOptional, hskip, hnull, hvalue, Except.map]

theorem reads_none (read : Reader α) : Reads (readOptional read) Value.null.elements none := by
  intro fs cs _ h
  have hword : Writes (.word ('n' :: "ull".toList) :: fs) cs := h
  obtain ⟨rest, hskip, hfs⟩ := hword.word rfl
  exact ⟨rest, by simp [readOptional, hskip, keyword, Except.map], hfs⟩

theorem closing_eq_ok {c : Char} {es : List Element} {cs : List Char} (hc : isBlank c = false)
    (h : Writes (.mark c :: es) cs) : ∃ rest, closing c cs = .ok rest ∧ Writes es rest := by
  obtain ⟨rest, hskip, hes⟩ := h.mark hc
  exact ⟨rest, by simp [closing, hskip], hes⟩

section items

variable {read : Reader α} {es fs : List Element} {cs : List Char} {value : α} {first : Bool}
  {parts : List (List Element)} {values : List α}

theorem nextItem_close (first : Bool) (h : Writes (.mark ']' :: es) cs) :
    ∃ rest, nextItem first cs = .ok (false, rest) ∧ Writes (.mark ']' :: es) rest := by
  obtain ⟨rest, hskip, hes⟩ := h.mark rfl
  exact ⟨']' :: rest, by simp [nextItem, hskip], hes.cons_mark ']'⟩

theorem nextItem_part (hstarts : Starts es) (h : Writes (upcoming first (es :: parts) ++ fs) cs) :
    ∃ rest, nextItem first cs = .ok (true, rest) ∧
      Writes (es ++ (upcoming false parts ++ fs)) rest := by
  obtain ⟨c, hinitial, hblank, hclose⟩ := hstarts
  cases first with
  | true =>
    rw [upcoming, separated, List.append_assoc] at h
    obtain ⟨cs', hskip, hstrip⟩ := h.strip (initial?_append hinitial _) hblank
    exact ⟨c :: cs', by simp [nextItem, hskip, hclose], hstrip⟩
  | false =>
    rw [upcoming, List.flatMap_cons, List.append_assoc] at h
    obtain ⟨cs', hcomma, hrest⟩ := h.mark rfl
    obtain ⟨cs'', hskip, hstrip⟩ := hrest.strip (initial?_append hinitial _) hblank
    exact ⟨c :: cs'', by simp [nextItem, hcomma, hskip, hclose], hstrip⟩

theorem readItem?_close (read : Reader α) (first : Bool) (h : Writes (.mark ']' :: es) cs) :
    ∃ rest, readItem? first read cs = .ok (none, rest) ∧ Writes (.mark ']' :: es) rest := by
  obtain ⟨rest, hnone, hrest⟩ := nextItem_close first h
  exact ⟨rest, by simp [readItem?, hnone, bind, Except.bind, pure, Except.pure], hrest⟩

theorem readItem?_part (hread : Reads read es value) (hstarts : Starts es)
    (h : Writes (upcoming first (es :: parts) ++ .mark ']' :: fs) cs) :
    ∃ rest, readItem? first read cs = .ok (some value, rest) ∧
      Writes (upcoming false parts ++ .mark ']' :: fs) rest := by
  obtain ⟨cs', hsome, hitem⟩ := nextItem_part hstarts h
  obtain ⟨rest, hvalue, hrest⟩ := hread _ cs' (ends_upcoming (by decide) parts fs) hitem
  exact ⟨rest, by simp [readItem?, hsome, hvalue, bind, Except.bind, pure, Except.pure], hrest⟩

/-- The elements of items and the values that they are read as. -/
abbrev Items (read : Reader α) : List (List Element) → List α → Prop :=
  List.Forall₂ fun es value => Reads read es value ∧ Starts es

theorem readItems_eq_ok (first : Bool) (hitems : Items read parts values) {rounds : Nat}
    (hrounds : parts.length < rounds) (h : Writes (upcoming first parts ++ .mark ']' :: fs) cs) :
    ∃ rest, readItems read rounds first cs = .ok (values, rest) ∧
      Writes (.mark ']' :: fs) rest := by
  induction hitems generalizing rounds first cs with
  | nil =>
    obtain ⟨rounds, rfl⟩ := Nat.exists_eq_add_one_of_ne_zero (Nat.ne_of_gt hrounds)
    rw [upcoming_nil] at h
    obtain ⟨rest, hnone, hrest⟩ := readItem?_close read first h
    refine ⟨rest, ?_, hrest⟩
    simp [readItems, hnone, bind, Except.bind, pure, Except.pure]
  | @cons es value parts values hitem _ ih =>
    obtain ⟨rounds, rfl⟩ := Nat.exists_eq_add_one_of_ne_zero (Nat.ne_zero_of_lt hrounds)
    obtain ⟨middle, hsome, hmiddle⟩ := readItem?_part hitem.1 hitem.2 h
    obtain ⟨rest, hvalues, hrest⟩ := ih false (Nat.lt_of_succ_lt_succ hrounds) hmiddle
    refine ⟨rest, ?_, hrest⟩
    simp [readItems, hsome, hvalues, bind, Except.bind, pure, Except.pure]

end items

def Element.isMark : Element → Bool
  | mark _ => true
  | _ => false

theorem Writes.countP_isMark_le {es : List Element} {cs : List Char} (h : Writes es cs) :
    es.countP Element.isMark ≤ cs.length := by
  induction h with
  | done => exact Nat.le_refl 0
  | blank _ _ ih => exact Nat.le_succ_of_le ih
  | @element e es spelling cs hspelled _ ih =>
    cases e with
    | mark c =>
      cases hspelled
      have hmark : Element.isMark (.mark c) = true := rfl
      rw [List.countP_cons_of_pos hmark]
      exact Nat.succ_le_succ ih
    | text value => simp [Element.isMark]; omega
    | word letters => simp [Element.isMark]; omega

theorem length_le_countP_flatMap (parts : List (List Element)) :
    parts.length ≤ (parts.flatMap (.mark ',' :: ·)).countP Element.isMark := by
  induction parts with
  | nil => exact Nat.le_refl 0
  | cons es parts ih =>
    have hcomma : Element.isMark (.mark ',') = true := rfl
    rw [List.flatMap_cons, List.countP_append, List.countP_cons_of_pos hcomma, List.length_cons]
    omega

theorem length_parts_le {parts : List (List Element)} {c : Char} {fs : List Element}
    {cs : List Char} (h : Writes (separated parts ++ .mark c :: fs) cs) :
    parts.length ≤ cs.length := by
  -- One mark closes, and a comma stands before every part but the first.
  have hmarks := h.countP_isMark_le
  have hclose : Element.isMark (.mark c) = true := rfl
  rw [List.countP_append, List.countP_cons_of_pos hclose] at hmarks
  cases parts with
  | nil => exact Nat.zero_le _
  | cons es parts =>
    have hrest := length_le_countP_flatMap parts
    rw [separated, List.countP_append] at hmarks
    rw [List.length_cons]
    omega

theorem reads_list {read : Reader α} {parts : List (List Element)} {values : List α}
    (hitems : Items read parts values) :
    Reads (readList read) (.mark '[' :: separated parts ++ [.mark ']']) values := by
  intro fs cs _ h
  simp only [List.cons_append, List.append_assoc, List.nil_append] at h
  obtain ⟨cs', hskip, hbody⟩ := h.mark rfl
  have hrounds : parts.length < cs'.length + 1 := Nat.lt_succ_of_le (length_parts_le hbody)
  obtain ⟨middle, hvalues, hmiddle⟩ := readItems_eq_ok true hitems hrounds hbody
  obtain ⟨rest, hclose, hrest⟩ := closing_eq_ok rfl hmiddle
  refine ⟨rest, ?_, hrest⟩
  simp [readList, hskip, hvalues, hclose, bind, Except.bind, pure, Except.pure]

def memberPart (m : String × List Element) : List Element := .text m.1 :: .mark ':' :: m.2

section members

variable {es fs : List Element} {cs : List Char} {key : String}

theorem nextMember_close (first : Bool) (h : Writes (.mark '\x7d' :: es) cs) :
    ∃ rest, nextMember first cs = .ok (false, rest) ∧ Writes (.mark '\x7d' :: es) rest := by
  obtain ⟨rest, hskip, hes⟩ := h.mark rfl
  exact ⟨'\x7d' :: rest, by simp [nextMember, hskip], hes.cons_mark '\x7d'⟩

variable {e : Element} {first : Bool} {parts : List (List Element)}

theorem nextMember_part (hquote : e.initial? = some '"')
    (h : Writes (upcoming first ((e :: es) :: parts) ++ fs) cs) :
    ∃ spelling rest, nextMember first cs = .ok (true, spelling ++ rest) ∧
      e.Spelled ('"' :: spelling) ∧ Writes (es ++ (upcoming false parts ++ fs)) rest := by
  cases first with
  | true =>
    rw [upcoming, separated, List.append_assoc] at h
    obtain ⟨spelling, rest, hspelled, hskip, hrest⟩ := h.skipBlanks hquote rfl
    exact ⟨spelling, rest, by simp [nextMember, hskip], hspelled, hrest⟩
  | false =>
    rw [upcoming, List.flatMap_cons, List.append_assoc] at h
    obtain ⟨cs', hcomma, hbehind⟩ := h.mark rfl
    obtain ⟨spelling, rest, hspelled, hskip, hrest⟩ := hbehind.skipBlanks hquote rfl
    exact ⟨spelling, rest, by simp [nextMember, hcomma, openingQuote, hskip, Except.map],
      hspelled, hrest⟩

theorem stringRest_spelled {spelling : List Char}
    (h : (Element.text key).Spelled ('"' :: spelling)) (rest : List Char) :
    stringRest .plain (spelling ++ rest) = .ok (key.toList, rest) := by
  obtain ⟨body, hbody, hspelling⟩ := h
  obtain rfl := List.tail_eq_of_cons_eq hspelling
  rw [List.append_assoc]
  exact stringRest_body hbody rest

/-- The members, read one after another, make one record of another. -/
inductive Builds (member : String → σ → Reader σ) : σ → List (String × List Element) → σ → Prop
  | nil (record : σ) : Builds member record [] record
  | cons {record middle last : σ} {key : String} {es : List Element}
      {members : List (String × List Element)}
      (h : Reads (member key record) (.mark ':' :: es) middle)
      (hrest : Builds member middle members last) : Builds member record ((key, es) :: members) last

variable {member : String → σ → Reader σ} {record last : σ}
  {members : List (String × List Element)}

theorem readMembers_eq_ok (first : Bool) (hbuilds : Builds member record members last)
    {rounds : Nat} (hrounds : members.length < rounds)
    (h : Writes (upcoming first (members.map memberPart) ++ .mark '\x7d' :: fs) cs) :
    ∃ rest, readMembers member rounds first record cs = .ok (last, rest) ∧
      Writes (.mark '\x7d' :: fs) rest := by
  induction hbuilds generalizing rounds first cs with
  | nil record =>
    obtain ⟨rounds, rfl⟩ := Nat.exists_eq_add_one_of_ne_zero (Nat.ne_of_gt hrounds)
    rw [List.map_nil, upcoming_nil] at h
    obtain ⟨rest, hnone, hrest⟩ := nextMember_close first h
    refine ⟨rest, ?_, hrest⟩
    simp [readMembers, hnone, bind, Except.bind, pure, Except.pure]
  | @cons record middle last key es members hfirst _ ih =>
    obtain ⟨rounds, rfl⟩ := Nat.exists_eq_add_one_of_ne_zero (Nat.ne_zero_of_lt hrounds)
    obtain ⟨spelling, cs', hmore, hspelled, hvalue⟩ := nextMember_part rfl h
    have hkey := stringRest_spelled hspelled cs'
    obtain ⟨tail, hmember, hmiddle⟩ := hfirst _ _ (ends_upcoming (by decide) _ fs) hvalue
    obtain ⟨rest, hlast, hrest⟩ := ih false (Nat.lt_of_succ_lt_succ hrounds) hmiddle
    refine ⟨rest, ?_, hrest⟩
    simp [readMembers, hmore, hkey, hmember, hlast, bind, Except.bind]

end members

theorem reads_field {present : Option α} {read : Reader α} {es : List Element} {value : α}
    (hpresent : present = none) (hread : Reads read es value) (name : String) (put : α → σ) :
    Reads (readField name present read put) (.mark ':' :: es) (put value) := by
  intro fs cs hends h
  obtain ⟨cs', hskip, hvalue⟩ := h.mark rfl
  obtain ⟨rest, hread, hrest⟩ := hread _ _ hends hvalue
  refine ⟨rest, ?_, hrest⟩
  simp [readField, hpresent, colon, hskip, hread, bind, Except.bind, pure, Except.pure]

theorem reads_record {empty last : σ} {columns : List (Column σ)}
    {complete : σ → Except DocumentFault α} {value : α} {members : List (String × List Element)}
    (hbuilds : Builds (readMember columns) empty members last)
    (hcomplete : complete last = .ok value) (expected : String) :
    Reads (readRecord expected empty columns complete)
      (.mark '\x7b' :: separated (members.map memberPart) ++ [.mark '\x7d']) value := by
  intro fs cs _ h
  simp only [List.cons_append, List.append_assoc, List.nil_append] at h
  obtain ⟨cs', hskip, hbody⟩ := h.mark rfl
  have hrounds : members.length < cs'.length + 1 := by
    simpa using Nat.lt_succ_of_le (length_parts_le hbody)
  obtain ⟨middle, hlast, hmiddle⟩ := readMembers_eq_ok true hbuilds hrounds hbody
  obtain ⟨rest, hclose, hrest⟩ := closing_eq_ok rfl hmiddle
  refine ⟨rest, ?_, hrest⟩
  simp [readRecord, hskip, hlast, hcomplete, hclose, bind, Except.bind, pure, Except.pure]

theorem readAll_eq_ok {read : Reader α} {es : List Element} {value : α}
    (hread : Reads read es value) {cs : List Char} (h : Writes es cs) :
    readAll read (String.ofList cs) = .ok value := by
  obtain ⟨rest, hvalue, hrest⟩ := hread [] cs ends_nil (by simpa using h)
  simp [readAll, hvalue, hrest.skipBlanks_nil, bind, Except.bind, pure, Except.pure]

end Tilework.Json
