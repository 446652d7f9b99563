import Mathlib.Data.Char
import Tilework.Json.Reader
import Tilework.Json.Value

/-!
# Spellings of documents

A document is a sequence of lexical elements: marks, words and texts. It can be written in many
ways, since blanks may stand before every element and behind the last one, and most characters of a
text can be written plainly or by escapes. Reading does not tell these ways apart: it takes an
element from whatever way of writing it and leaves a way of writing the rest.
-/

namespace Tilework.Json

inductive Element where
  /-- A bracket, a brace, a comma or a colon. -/
  | mark (c : Char)
  | text (value : String)
  /-- A keyword or a numeral. -/
  | word (letters : List Char)

/-- Four hexadecimal digits and their value. -/
inductive CodeUnit : List Char → Nat → Prop
  | digits {c₃ c₂ c₁ c₀ : Char} {d₃ d₂ d₁ d₀ : Nat} (h₃ : hexDigit? c₃ = some d₃)
      (h₂ : hexDigit? c₂ = some d₂) (h₁ : hexDigit? c₁ = some d₁) (h₀ : hexDigit? c₀ = some d₀) :
      CodeUnit [c₃, c₂, c₁, c₀] (16 * (16 * (16 * d₃ + d₂) + d₁) + d₀)

/-- The ways to write a character of a text. -/
inductive CharSpelling (c : Char) : List Char → Prop
  | plain (hquote : c ≠ '"') (hbackslash : c ≠ '\\') (hcontrol : ¬ c.toNat < 0x20) :
      CharSpelling c [c]
  | letter {letter : Char} (h : escaped? letter = some c) : CharSpelling c ['\\', letter]
  | unit {digits : List Char} (h : CodeUnit digits c.toNat) :
      CharSpelling c ('\\' :: 'u' :: digits)
  /-- A surrogate pair. -/
  | pair {digits digits' : List Char} {leading trailing : Nat} (h : CodeUnit digits leading)
      (h' : CodeUnit digits' trailing) (hleading : isLeading leading = true)
      (htrailing : isTrailing trailing = true) (hchar : pairChar leading trailing = c) :
      CharSpelling c ('\\' :: 'u' :: digits ++ '\\' :: 'u' :: digits')

/-- The ways to write the characters of a text one after another. -/
inductive BodySpelling : List Char → List Char → Prop
  | nil : BodySpelling [] []
  | cons {c : Char} {cs spelling rest : List Char} (h : CharSpelling c spelling)
      (hrest : BodySpelling cs rest) : BodySpelling (c :: cs) (spelling ++ rest)

def Element.Spelled : Element → List Char → Prop
  | mark c, cs => cs = [c]
  | text value, cs => ∃ body, BodySpelling value.toList body ∧ cs = '"' :: (body ++ ['"'])
  | word letters, cs => cs = letters

/-- The ways to write a sequence of elements. -/
inductive Writes : List Element → List Char → Prop
  | done : Writes [] []
  | blank {c : Char} {es : List Element} {cs : List Char} (hblank : isBlank c = true)
      (h : Writes es cs) : Writes es (c :: cs)
  | element {e : Element} {es : List Element} {spelling cs : List Char}
      (hspelled : e.Spelled spelling) (h : Writes es cs) : Writes (e :: es) (spelling ++ cs)

theorem stringRest_unit {digits : List Char} {value : Nat} (h : CodeUnit digits value)
    (leading : Option Nat) (cs : List Char) :
    stringRest (.unit leading 4 0) (digits ++ cs) =
      match leading with
      | none =>
        if isTrailing value then .error .malformed
        else if isLeading value then stringRest (.backslash value) cs
        else prepend (Char.ofNat value) (stringRest .plain cs)
      | some first =>
        if isTrailing value then prepend (pairChar first value) (stringRest .plain cs)
        else .error .malformed := by
  cases h with
  | digits h₃ h₂ h₁ h₀ => cases leading <;> simp [stringRest, h₃, h₂, h₁, h₀]

theorem isLeading_toNat (c : Char) : isLeading c.toNat = false := by
  have hvalid : c.toNat.isValidChar := c.valid
  rw [isLeading, ← Bool.decide_and, decide_eq_false_iff_not]
  rcases hvalid with h | h <;> omega

theorem isTrailing_toNat (c : Char) : isTrailing c.toNat = false := by
  have hvalid : c.toNat.isValidChar := c.valid
  rw [isTrailing, ← Bool.decide_and, decide_eq_false_iff_not]
  rcases hvalid with h | h <;> omega

theorem stringRest_char {c : Char} {spelling : List Char} (h : CharSpelling c spelling)
    (cs : List Char) :
    stringRest .plain (spelling ++ cs) = prepend c (stringRest .plain cs) := by
  cases h with
  | plain hquote hbackslash hcontrol => simp [stringRest, hquote, hbackslash, hcontrol]
  | @letter letter h =>
    have hu : letter ≠ 'u' := by
      rintro rfl
      have hnone : escaped? 'u' = none := by decide
      rw [hnone] at h
      cases h
    simp [stringRest, hu, h]
  | unit h =>
    have hunit := stringRest_unit h none cs
    rw [isTrailing_toNat, isLeading_toNat, Char.ofNat_toNat] at hunit
    simpa [stringRest] using hunit
  | @pair digits digits' leading trailing h h' hleading htrailing hchar =>
    have hboth : isTrailing leading = false := by
      simp only [isLeading, isTrailing, Bool.and_eq_true, decide_eq_true_eq] at hleading ⊢
      simp; omega
    have hfirst := stringRest_unit h none ('\\' :: 'u' :: (digits' ++ cs))
    have hsecond := stringRest_unit h' (some leading) cs
    simp only [hboth, hleading, htrailing, hchar, if_true] at hfirst hsecond
    simp [stringRest, hfirst, hsecond]

/-- A text is read from any way of writing it, and what follows its closing quote is left. -/
theorem stringRest_body {text body : List Char} (h : BodySpelling text body) (cs : List Char) :
    stringRest .plain (body ++ '"' :: cs) = .ok (text, cs) := by
  induction h with
  | nil => rfl
  | cons hchar _ ih => rw [List.append_assoc, stringRest_char hchar, ih]; rfl

theorem Writes.blanks {blanks : List Char} (hblanks : ∀ c ∈ blanks, isBlank c = true)
    {es : List Element} {cs : List Char} (h : Writes es cs) : Writes es (blanks ++ cs) := by
  induction blanks with
  | nil => exact h
  | cons c blanks ih =>
    rw [List.forall_mem_cons] at hblanks
    exact .blank hblanks.1 (ih hblanks.2)

/-- The character with which every way to write an element starts. -/
def Element.initial? : Element → Option Char
  | mark c => some c
  | text _ => some '"'
  | word letters => letters.head?

theorem Element.Spelled.head? {e : Element} {spelling : List Char} (h : e.Spelled spelling) :
    spelling.head? = e.initial? := by
  cases e with
  | mark c => rw [h]; rfl
  | text value =>
    obtain ⟨body, -, rfl⟩ := h
    rfl
  | word letters => rw [h]; rfl

/-- The character with which the elements start, behind the blanks. -/
def initial? (es : List Element) : Option Char := es.head?.bind Element.initial?

namespace Writes

variable {e : Element} {es : List Element} {cs : List Char} {c : Char}

theorem skipBlanks (h : Writes (e :: es) cs) (hinitial : e.initial? = some c)
    (hc : isBlank c = false) :
    ∃ spelling rest, e.Spelled (c :: spelling) ∧
      Json.skipBlanks cs = c :: (spelling ++ rest) ∧ Writes es rest := by
  -- By induction on the way of writing: blanks are skipped until the first element comes.
  generalize hall : e :: es = all at h
  induction h with
  | done => cases hall
  | blank hblank _ ih =>
    rw [Json.skipBlanks, List.dropWhile_cons_of_pos hblank]
    exact ih hall
  | @element e es spelling cs hspelled hrest _ =>
    cases hall
    obtain ⟨spelling, rfl⟩ := List.head?_eq_some_iff.mp (hspelled.head?.trans hinitial)
    refine ⟨spelling, cs, hspelled, ?_, hrest⟩
    rw [Json.skipBlanks, List.cons_append, List.dropWhile_cons_of_neg (by simp [hc])]

theorem strip (h : Writes es cs) (hinitial : initial? es = some c) (hc : isBlank c = false) :
    ∃ rest, Json.skipBlanks cs = c :: rest ∧ Writes es (c :: rest) := by
  cases es with
  | nil => cases hinitial
  | cons e es =>
    obtain ⟨spelling, rest, hspelled, hskip, hrest⟩ := h.skipBlanks hinitial hc
    exact ⟨spelling ++ rest, hskip, .element hspelled hrest⟩

theorem skipBlanks_nil (h : Writes [] cs) : Json.skipBlanks cs = [] := by
  generalize hall : [] = all at h
  induction h with
  | done => rfl
  | blank hblank _ ih =>
    rw [Json.skipBlanks, List.dropWhile_cons_of_pos hblank]
    exact ih hall
  | element => cases hall

theorem mark (h : Writes (.mark c :: es) cs) (hc : isBlank c = false) :
    ∃ rest, Json.skipBlanks cs = c :: rest ∧ Writes es rest := by
  obtain ⟨_, rest, hspelled, hskip, hrest⟩ := h.skipBlanks rfl hc
  cases hspelled
  exact ⟨rest, hskip, hrest⟩

theorem text {value : String} (h : Writes (.text value :: es) cs) :
    ∃ cs', Json.skipBlanks cs = '"' :: cs' ∧
      ∃ rest, stringRest .plain cs' = .ok (value.toList, rest) ∧ Writes es rest := by
  obtain ⟨_, rest, ⟨body, hbody, hspelled⟩, hskip, hrest⟩ := h.skipBlanks rfl rfl
  cases hspelled
  exact ⟨body ++ '"' :: rest, by simpa using hskip, rest, stringRest_body hbody rest, hrest⟩

theorem word {letters : List Char} (h : Writes (.word (c :: letters) :: es) cs)
    (hc : isBlank c = false) :
    ∃ rest, Json.skipBlanks cs = c :: (letters ++ rest) ∧ Writes es rest := by
  obtain ⟨_, rest, hspelled, hskip, hrest⟩ := h.skipBlanks rfl hc
  cases hspelled
  exact ⟨rest, hskip, hrest⟩

end Writes

/-- The texts of all the parts, with commas between them. -/
def separated : List (List Element) → List Element
  | [] => []
  | es :: parts => es ++ parts.flatMap (.mark ',' :: ·)

namespace Value

mutual

def elements : Value → List Element
  | null => [.word "null".toList]
  | bool value => [.word (if value then "true" else "false").toList]
  | number numeral => [.word numeral.toList]
  | text value => [.text value]
  | list items => .mark '[' :: separated (itemElements items) ++ [.mark ']']
  | object members => .mark '\x7b' :: separated (memberElements members) ++ [.mark '\x7d']

def itemElements : List Value → List (List Element)
  | [] => []
  | v :: vs => v.elements :: itemElements vs

def memberElements : List (String × Value) → List (List Element)
  | [] => []
  | (key, v) :: ms => (.text key :: .mark ':' :: v.elements) :: memberElements ms

end

theorem itemElements_eq (items : List Value) : itemElements items = items.map elements := by
  induction items with
  | nil => rfl
  | cons v vs ih => rw [itemElements, ih, List.map_cons]

end Value

theorem hexDigit?_digitChar : ∀ n < 16, hexDigit? (Nat.digitChar n) = some n := by
  decide

theorem charSpelling_escapeChar (c : Char) : CharSpelling c (escapeChar c) := by
  by_cases hletter : c ∈ ['"', '\\', '\x08', '\x0c', '\n', '\r', '\t']
  · simp only [List.mem_cons, List.not_mem_nil, or_false] at hletter
    rcases hletter with rfl | rfl | rfl | rfl | rfl | rfl | rfl <;> exact .letter rfl
  · simp only [List.mem_cons, List.not_mem_nil, or_false, not_or] at hletter
    obtain ⟨hquote, hbackslash, hback, hfeed, hnewline, hreturn, htab⟩ := hletter
    rw [escapeChar, if_neg hquote, if_neg hbackslash, if_neg hback, if_neg hfeed, if_neg hnewline,
      if_neg hreturn, if_neg htab]
    split
    · next hcontrol =>
      have hvalue : c.toNat = 16 * (16 * (16 * 0 + 0) + c.toNat / 16) + c.toNat % 16 := by omega
      have hunit := CodeUnit.digits (hexDigit?_digitChar 0 (by decide))
        (hexDigit?_digitChar 0 (by decide)) (hexDigit?_digitChar (c.toNat / 16) (by omega))
        (hexDigit?_digitChar (c.toNat % 16) (by omega))
      rw [← hvalue] at hunit
      exact .unit hunit
    · next hcontrol => exact .plain hquote hbackslash hcontrol

theorem bodySpelling_escape (cs : List Char) : BodySpelling cs (cs.flatMap escapeChar) := by
  induction cs with
  | nil => exact .nil
  | cons c cs ih => exact .cons (charSpelling_escapeChar c) ih

namespace Writes

variable {es : List Element} {cs : List Char}

theorem cons_mark (h : Writes es cs) (c : Char) : Writes (.mark c :: es) (c :: cs) := by
  have hspelled : (Element.mark c).Spelled [c] := rfl
  exact .element hspelled h

theorem append_word (h : Writes es cs) (letters : List Char) :
    Writes (.word letters :: es) (letters ++ cs) := by
  have hspelled : (Element.word letters).Spelled letters := rfl
  exact .element hspelled h

theorem append_quote (h : Writes es cs) (value : String) :
    Writes (.text value :: es) (quote value ++ cs) :=
  .element ⟨_, bodySpelling_escape value.toList, rfl⟩ h

theorem append_newline (h : Writes es cs) (depth : Nat) :
    Writes es (Value.newline depth ++ cs) := by
  refine h.blanks fun c hc => ?_
  rcases List.mem_cons.mp hc with rfl | hc
  · rfl
  · rw [List.eq_of_mem_replicate hc]
    rfl

end Writes

namespace Value

variable {es : List Element} {cs : List Char}

mutual

theorem writes_compact : ∀ (v : Value) {es : List Element} {cs : List Char}, Writes es cs →
    Writes (v.elements ++ es) (v.compact ++ cs)
  | null, _, _, h => h.append_word _
  | bool _, _, _, h => h.append_word _
  | number _, _, _, h => h.append_word _
  | text value, _, _, h => h.append_quote value
  | list items, es, cs, h => by
    have hitems := writes_compactItems items (h.cons_mark ']')
    simpa [elements, compact] using hitems.cons_mark '['
  | object members, es, cs, h => by
    have hmembers := writes_compactMembers members (h.cons_mark '\x7d')
    simpa [elements, compact] using hmembers.cons_mark '\x7b'

theorem writes_compactItems : ∀ (items : List Value) {es : List Element} {cs : List Char},
    Writes es cs → Writes (separated (itemElements items) ++ es) (compactItems items ++ cs)
  | [], _, _, h => h
  | [v], _, _, h => by simpa [itemElements, separated, compactItems] using writes_compact v h
  | v :: w :: vs, es, cs, h => by
    have hrest := writes_compactItems (w :: vs) h
    simpa [itemElements, separated, compactItems] using writes_compact v (hrest.cons_mark ',')

theorem writes_compactMembers : ∀ (members : List (String × Value)) {es : List Element}
    {cs : List Char}, Writes es cs →
    Writes (separated (memberElements members) ++ es) (compactMembers members ++ cs)
  | [], _, _, h => h
  | [(key, v)], _, _, h => by
    have hmember := ((writes_compact v h).cons_mark ':').append_quote key
    simpa [memberElements, separated, compactMembers] using hmember
  | (key, v) :: m :: ms, es, cs, h => by
    have hrest := writes_compactMembers (m :: ms) h
    have hmember := ((writes_compact v (hrest.cons_mark ',')).cons_mark ':').append_quote key
    simpa [memberElements, separated, compactMembers] using hmember

end

mutual

theorem writes_pretty : ∀ (depth : Nat) (v : Value) {es : List Element} {cs : List Char},
    Writes es cs → Writes (v.elements ++ es) (v.pretty depth ++ cs)
  | _, null, _, _, h => h.append_word _
  | _, bool _, _, _, h => h.append_word _
  | _, number _, _, _, h => h.append_word _
  | _, text value, _, _, h => h.append_quote value
  | _, list [], _, _, h => (h.cons_mark ']').cons_mark '['
  | _, object [], _, _, h => (h.cons_mark '\x7d').cons_mark '\x7b'
  | depth, list (v :: vs), es, cs, h => by
    have hitems := writes_prettyItems (depth + 1) (v :: vs) ((h.cons_mark ']').append_newline depth)
    simpa [elements, pretty] using hitems.cons_mark '['
  | depth, object (m :: ms), es, cs, h => by
    have hmembers := writes_prettyMembers (depth + 1) (m :: ms)
      ((h.cons_mark '\x7d').append_newline depth)
    simpa [elements, pretty] using hmembers.cons_mark '\x7b'

theorem writes_prettyItems : ∀ (depth : Nat) (items : List Value) {es : List Element}
    {cs : List Char}, Writes es cs →
    Writes (separated (itemElements items) ++ es) (prettyItems depth items ++ cs)
  | _, [], _, _, h => h
  | depth, [v], _, _, h => by
    have hitem := (writes_pretty depth v h).append_newline depth
    simpa [itemElements, separated, prettyItems] using hitem
  | depth, v :: w :: vs, es, cs, h => by
    have hrest := writes_prettyItems depth (w :: vs) h
    have hitem := (writes_pretty depth v (hrest.cons_mark ',')).append_newline depth
    simpa [itemElements, separated, prettyItems] using hitem

theorem writes_prettyMembers : ∀ (depth : Nat) (members : List (String × Value))
    {es : List Element} {cs : List Char}, Writes es cs →
    Writes (separated (memberElements members) ++ es) (prettyMembers depth members ++ cs)
  | _, [], _, _, h => h
  | depth, [(key, v)], _, _, h => by
    have hvalue : Writes _ (' ' :: _) := .blank rfl (writes_pretty depth v h)
    have hmember := ((hvalue.cons_mark ':').append_quote key).append_newline depth
    simpa [memberElements, separated, prettyMembers] using hmember
  | depth, (key, v) :: m :: ms, es, cs, h => by
    have hrest := writes_prettyMembers depth (m :: ms) h
    have hvalue : Writes _ (' ' :: _) := .blank rfl (writes_pretty depth v (hrest.cons_mark ','))
    have hmember := ((hvalue.cons_mark ':').append_quote key).append_newline depth
    simpa [memberElements, separated, prettyMembers] using hmember

end

end Value

end Tilework.Json
