import Tilework.Token.Raw

/-!
# The pieces of a text

Pieces are what their text is cut into exactly when each of them is of its kind and is ended by the
character behind it. Nothing of a text is lost by cutting it. Blanks end every piece, so they can be
put in between any two pieces of a text, and all that this adds is the blanks.
-/

namespace Tilework

namespace Raw

variable {c : Char} {cs rest : List Char}

/-- What may be read as a piece of this kind. -/
def Proper : Raw → Prop
  | symbol _ => True
  | digits cs => cs ≠ [] ∧ ∀ c ∈ cs, c.isDigit = true
  | word cs => isName cs = true
  | blank c => isSpace c = true
  | unknown c => isSpace c = false ∧ isNameChar c = false ∧ c ∉ ['+', '(', ')', '[', ']']

/-- Whether a piece would go on with the character behind it. -/
def goesOn : Raw → Char → Bool
  | symbol (.operator .sizeMatched), c => c == '+' || c == '1'
  | symbol _, _ => false
  | digits _, c | word _, c => isNameChar c
  | blank _, _ | unknown _, _ => false

/-- Pieces of their kinds, each of them ended by what stands behind it. -/
def IsCut : List Raw → Prop
  | [] => True
  | piece :: pieces =>
    piece.Proper ∧ (∀ c ∈ (pieces.flatMap text).head?, piece.goesOn c = false) ∧ IsCut pieces

theorem isNameChar_of_isDigit (h : c.isDigit = true) : isNameChar c = true := by
  simp [isNameChar, Char.isAlphanum, h]

theorem isSpace_iff : isSpace c = true ↔ c = ' ' ∨ c = '\t' ∨ c = '\r' ∨ c = '\n' := by
  simp [isSpace, or_assoc]

theorem isNameChar_of_isSpace (h : isSpace c = true) : isNameChar c = false := by
  rcases isSpace_iff.mp h with rfl | rfl | rfl | rfl <;> decide

theorem ne_plus_of_isNameChar (h : isNameChar c = true) : c ≠ '+' := by
  rintro rfl
  exact absurd h (by decide)

theorem goesOn_of_isSpace (piece : Raw) (h : isSpace c = true) : piece.goesOn c = false := by
  have hname := isNameChar_of_isSpace h
  cases piece with
  | symbol s =>
    rcases isSpace_iff.mp h with rfl | rfl | rfl | rfl <;>
      rcases s with (_ | _ | _) | _ | _ | _ | _ <;> rfl
  | digits cs => exact hname
  | word cs => exact hname
  | blank _ => rfl
  | unknown _ => rfl

theorem goesOn_ofRun : (ofRun cs).goesOn c = isNameChar c := by
  rw [ofRun]
  split <;> rfl

theorem text_ofRun : (ofRun cs).text = cs := by
  rw [ofRun]
  split <;> rfl

theorem text_ofChar : (ofChar c).text = [c] := by
  rw [ofChar]
  repeat' split
  all_goals first | rfl | (subst c; rfl)

theorem proper_ofRun (hne : cs ≠ []) (hname : ∀ c ∈ cs, isNameChar c = true) :
    (ofRun cs).Proper := by
  rw [ofRun]
  split
  · next hdigits => exact ⟨hne, List.all_eq_true.mp hdigits⟩
  · next hdigits =>
    have hany : cs.any (! ·.isDigit) = true := by simpa using hdigits
    exact Bool.and_eq_true_iff.mpr ⟨List.all_eq_true.mpr hname, hany⟩

theorem ofRun_digits (h : ∀ c ∈ cs, c.isDigit = true) : ofRun cs = digits cs :=
  if_pos (List.all_eq_true.mpr h)

theorem ofRun_word (h : isName cs = true) : ofRun cs = word cs := by
  have hany := (Bool.and_eq_true_iff.mp h).2
  rw [ofRun, if_neg]
  simpa using hany

theorem proper_ofChar (hplus : c ≠ '+') (hname : isNameChar c = false) : (ofChar c).Proper := by
  rw [ofChar]
  split
  · next hspace => exact hspace
  repeat' split
  all_goals simp_all [Proper]

theorem goesOn_ofChar {d : Char} : (ofChar c).goesOn d = false := by
  rw [ofChar]
  repeat' split
  all_goals rfl

theorem split_run (hne : cs ≠ []) (hname : ∀ c ∈ cs, isNameChar c)
    (hrest : ∀ c ∈ rest.head?, isNameChar c = false) :
    split (cs ++ rest) = ofRun cs :: split rest := by
  obtain ⟨c, cs, rfl⟩ := List.exists_cons_of_ne_nil hne
  have hc : isNameChar c := hname c (by simp)
  have hplus : c ≠ '+' := ne_plus_of_isNameChar hc
  have htail : ∀ d ∈ cs, isNameChar d := fun d hd => hname d (by simp [hd])
  have hstop : rest.takeWhile isNameChar = [] ∧ rest.dropWhile isNameChar = rest := by
    cases rest with
    | nil => exact ⟨rfl, rfl⟩
    | cons d rest =>
      have hd : isNameChar d = false := hrest d (by simp)
      simp [hd]
  rw [List.cons_append, split.eq_def]
  split
  · next heq => cases heq
  · next heq => exact absurd (List.cons.inj heq).1 hplus
  · next heq => exact absurd (List.cons.inj heq).1 hplus
  · next heq => exact absurd (List.cons.inj heq).1 hplus
  · next d ds heq =>
    obtain ⟨rfl, rfl⟩ := List.cons.inj heq
    rw [if_pos hc, List.takeWhile_append_of_pos htail, List.dropWhile_append_of_pos htail, hstop.1,
      hstop.2, List.append_nil]

theorem split_char (hplus : c ≠ '+') (hname : isNameChar c = false) :
    split (c :: rest) = ofChar c :: split rest := by
  rw [split.eq_def]
  split
  · next heq => cases heq
  · next heq => exact absurd (List.cons.inj heq).1 hplus
  · next heq => exact absurd (List.cons.inj heq).1 hplus
  · next heq => exact absurd (List.cons.inj heq).1 hplus
  · next d ds heq =>
    obtain ⟨rfl, rfl⟩ := List.cons.inj heq
    rw [if_neg (by simp [hname])]

theorem split_plus (h : ∀ c ∈ rest.head?, c ≠ '+' ∧ c ≠ '1') :
    split ('+' :: rest) = symbol (.operator .sizeMatched) :: split rest := by
  cases rest with
  | nil => simp [split]
  | cons c rest =>
    obtain ⟨hplus, hone⟩ := h c (by simp)
    rw [split.eq_4 _ (by rintro _ heq; exact hplus (List.cons.inj heq).1)
      (by rintro _ heq; exact hone (List.cons.inj heq).1)]

theorem split_text_append {piece : Raw} (h : piece.Proper)
    (hrest : ∀ c ∈ rest.head?, piece.goesOn c = false) :
    split (piece.text ++ rest) = piece :: split rest := by
  cases piece with
  | symbol s =>
    rcases s with (_ | _ | _) | _ | _ | _ | _
    · refine split_plus fun c hc => ?_
      simpa [goesOn] using hrest c hc
    · exact split.eq_3 rest
    · exact split.eq_2 rest
    all_goals exact split_char (by decide) (by decide)
  | digits cs =>
    have hname : ∀ c ∈ cs, isNameChar c = true := fun c hc => isNameChar_of_isDigit (h.2 c hc)
    rw [← ofRun_digits h.2, text_ofRun]
    exact split_run h.1 hname hrest
  | word cs =>
    have hname := Bool.and_eq_true_iff.mp h
    have hne : cs ≠ [] := by
      rintro rfl
      cases h
    rw [← ofRun_word h, text_ofRun]
    exact split_run hne (List.all_eq_true.mp hname.1) hrest
  | blank c =>
    have hplus : c ≠ '+' := by
      rintro rfl
      cases h
    have hchar : ofChar c = blank c := if_pos h
    rw [← hchar, text_ofChar]
    exact split_char hplus (isNameChar_of_isSpace h)
  | unknown c =>
    obtain ⟨hspace, hname, hsymbol⟩ := h
    simp only [List.mem_cons, List.not_mem_nil, or_false, not_or] at hsymbol
    have hchar : ofChar c = unknown c := by simp [ofChar, hspace, hsymbol]
    rw [← hchar, text_ofChar]
    exact split_char hsymbol.1 hname

theorem text_split (cs : List Char) : (split cs).flatMap text = cs := by
  induction cs using split.induct with
  | case1 => simp [split]
  | case2 cs ih => rw [split.eq_2, List.flatMap_cons, ih]; rfl
  | case3 cs ih => rw [split.eq_3, List.flatMap_cons, ih]; rfl
  | case4 cs hplus hone ih => rw [split.eq_4 _ hplus hone, List.flatMap_cons, ih]; rfl
  | case5 c cs h₁ h₂ h₃ hname ih =>
    rw [split.eq_5 _ _ h₁ h₂ h₃, if_pos hname, List.flatMap_cons, ih, text_ofRun, List.cons_append,
      List.takeWhile_append_dropWhile]
  | case6 c cs h₁ h₂ h₃ hname ih =>
    rw [split.eq_5 _ _ h₁ h₂ h₃, if_neg hname, List.flatMap_cons, ih, text_ofChar]
    rfl

theorem isCut_split (cs : List Char) : IsCut (split cs) := by
  induction cs using split.induct with
  | case1 => simp [split, IsCut]
  | case2 cs ih =>
    rw [split.eq_2]
    exact ⟨trivial, fun _ _ => rfl, ih⟩
  | case3 cs ih =>
    rw [split.eq_3]
    exact ⟨trivial, fun _ _ => rfl, ih⟩
  | case4 cs hplus hone ih =>
    rw [split.eq_4 _ hplus hone]
    refine ⟨trivial, fun c hc => ?_, ih⟩
    rw [text_split] at hc
    obtain ⟨rest, rfl⟩ := List.head?_eq_some_iff.mp hc
    have hne : c ≠ '+' ∧ c ≠ '1' :=
      ⟨fun heq => hplus rest (by rw [heq]), fun heq => hone rest (by rw [heq])⟩
    simp [goesOn, hne]
  | case5 c cs h₁ h₂ h₃ hname ih =>
    rw [split.eq_5 _ _ h₁ h₂ h₃, if_pos hname]
    refine ⟨proper_ofRun (List.cons_ne_nil _ _) ?_, fun d hd => ?_, ih⟩
    · rw [List.forall_mem_cons]
      exact ⟨hname, List.all_eq_true.mp List.all_takeWhile⟩
    · rw [text_split] at hd
      have hstop := List.head?_dropWhile_not isNameChar cs
      rw [Option.mem_def.mp hd] at hstop
      rw [goesOn_ofRun, hstop]
  | case6 c cs h₁ h₂ h₃ hname ih =>
    rw [split.eq_5 _ _ h₁ h₂ h₃, if_neg hname]
    have hplus : c ≠ '+' := by
      rintro rfl
      exact h₃ rfl
    exact ⟨proper_ofChar hplus (by simpa using hname), fun _ _ => goesOn_ofChar, ih⟩

theorem IsCut.split_text {pieces : List Raw} (h : IsCut pieces) :
    split (pieces.flatMap text) = pieces := by
  induction pieces with
  | nil => simp [split]
  | cons piece pieces ih =>
    obtain ⟨hproper, hend, hrest⟩ := h
    rw [List.flatMap_cons, split_text_append hproper hend, ih hrest]

/-- Cutting a text gives the pieces of their kinds that make up the text and are each ended by what
stands behind them. -/
theorem split_eq_iff {pieces : List Raw} :
    split cs = pieces ↔ pieces.flatMap text = cs ∧ IsCut pieces := by
  constructor
  · rintro rfl
    exact ⟨text_split cs, isCut_split cs⟩
  · rintro ⟨rfl, h⟩
    exact h.split_text

theorem IsCut.proper {pieces : List Raw} (h : IsCut pieces) : ∀ piece ∈ pieces, piece.Proper := by
  induction pieces with
  | nil => simp
  | cons piece pieces ih =>
    rw [List.forall_mem_cons]
    exact ⟨h.1, ih h.2.2⟩

theorem flatMap_text_blank (blanks : List Char) : (blanks.map blank).flatMap text = blanks := by
  rw [List.flatMap_map]
  exact List.flatMap_singleton' blanks

theorem IsCut.insert {before behind : List Raw} (h : IsCut (before ++ behind)) {blanks : List Char}
    (hblanks : ∀ c ∈ blanks, isSpace c = true) :
    IsCut (before ++ blanks.map blank ++ behind) := by
  induction before with
  | nil =>
    induction blanks with
    | nil => exact h
    | cons c blanks ih =>
      rw [List.forall_mem_cons] at hblanks
      exact ⟨hblanks.1, fun _ _ => rfl, ih hblanks.2⟩
  | cons piece before ih =>
    obtain ⟨hproper, hend, hrest⟩ := h
    refine ⟨hproper, fun c hc => ?_, ih hrest⟩
    have hhead : c ∈ (before.flatMap text ++ blanks ++ behind.flatMap text).head? := by
      rw [← flatMap_text_blank blanks, ← List.flatMap_append, ← List.flatMap_append]
      exact hc
    have hend : ∀ d ∈ (before.flatMap text ++ behind.flatMap text).head?,
        piece.goesOn d = false := by
      rw [← List.flatMap_append]
      exact hend
    simp only [List.head?_append, Option.mem_def, Option.or_eq_some_iff] at hhead hend
    -- The next character was the next one already, or it is one of the blanks.
    rcases hhead with (hc | ⟨hbefore, hc⟩) | ⟨hbefore, hc⟩
    · exact hend c (Or.inl hc)
    · exact goesOn_of_isSpace piece (hblanks c (List.mem_of_head? hc))
    · exact hend c (Or.inr ⟨(Option.or_eq_none_iff.mp hbefore).1, hc⟩)

theorem split_insert (cs : List Char) (n : Nat) {blanks : List Char}
    (hblanks : ∀ c ∈ blanks, isSpace c = true) :
    split (((split cs).take n).flatMap text ++ blanks ++ ((split cs).drop n).flatMap text) =
      (split cs).take n ++ blanks.map blank ++ (split cs).drop n := by
  have hcut : IsCut ((split cs).take n ++ (split cs).drop n) := by
    rw [List.take_append_drop]
    exact isCut_split cs
  refine split_eq_iff.mpr ⟨?_, hcut.insert hblanks⟩
  rw [List.flatMap_append, List.flatMap_append, flatMap_text_blank]

end Raw

end Tilework
