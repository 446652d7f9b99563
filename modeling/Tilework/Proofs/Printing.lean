import Tilework.Proofs.Reading

/-!
# Printing tokens

The tokens of a text are printed with a blank between any two, and what was printed is read again.
Each token is read as its parts: longest names, greatest operators and digits of integers come back
since a blank ends every piece, and nothing is skipped. What the parts are put together to are the
tokens again, unless a reference without a parameter stands in front of an integer in brackets.
-/

namespace Tilework

/-- The texts of tokens, with a blank between any two. -/
def Token.print (tokens : List Token) : String := " ".intercalate (tokens.map text)

namespace TokenStream

variable {catalog : Catalog} {rest : List Char}

theorem toList_toString (n : Nat) : (toString n).toList = Nat.toDigits 10 n := by
  rw [Nat.toString_eq_ofList_toDigits, String.toList_ofList]

theorem reads_integer {n : Nat} (hn : n ≤ greatestInteger)
    (hrest : ∀ c ∈ rest.head?, isNameChar c = false) :
    Reads catalog (toString n).toList [.integer n] rest := by
  have hproper : (Raw.digits (Nat.toDigits 10 n)).Proper :=
    ⟨Nat.toDigits_ne_nil, fun c hc => Nat.isDigit_of_mem_toDigits (by decide) (by decide) hc⟩
  rw [toList_toString]
  refine reads_piece (.digits (Nat.toDigits 10 n)) hproper hrest fun start => ?_
  simp [ofPiece, tokens, hn]

theorem reads_token (h : catalog.Ordered) {token : Token} (hknown : token.Known catalog)
    (hrest : ∀ c ∈ rest.head?, c = ' ') : Reads catalog token.text.toList token.parts rest := by
  have hends : ∀ piece : Raw, ∀ c ∈ rest.head?, piece.goesOn c = false := by
    intro piece c hc
    rw [hrest c hc]
    exact piece.goesOn_of_isSpace rfl
  have hblank : ∀ c ∈ rest.head?, isNameChar c = false := hends (.word [])
  cases token with
  | operator op => exact reads_symbol (.operator op) (hends _)
  | openParen => exact reads_symbol .openParen (hends _)
  | closeParen => exact reads_symbol .closeParen (hends _)
  | openBracket => exact reads_symbol .openBracket (hends _)
  | closeBracket => exact reads_symbol .closeBracket (hends _)
  | integer value => exact reads_integer hknown hblank
  | tile name cls param =>
    obtain ⟨hmem, hparam⟩ := hknown
    by_cases hzero : param = 0
    · rw [Token.text, Token.parts, if_pos hzero, if_pos hzero]
      exact reads_name h hmem hblank
    · have hclose : Reads catalog [']'] [.closeBracket] rest := reads_symbol .closeBracket (hends _)
      have hdigits : Reads catalog (toString param).toList [.integer param] ([']'] ++ rest) :=
        reads_integer hparam (by simp; decide)
      have hopen : Reads catalog ['['] [.openBracket] ((toString param).toList ++ [']'] ++ rest) :=
        reads_symbol .openBracket fun _ _ => rfl
      have hname : Reads catalog name.toList [.tile name cls 0]
          (['['] ++ ((toString param).toList ++ [']']) ++ rest) :=
        reads_name h hmem (by simp; decide)
      rw [Token.text, Token.parts, if_neg hzero, if_neg hzero]
      simpa using hname.append (hopen.append (hdigits.append hclose))

/-- Printed tokens are read as their parts, and nothing is skipped. -/
theorem reads_print (h : catalog.Ordered) {tokens : List Token}
    (hknown : ∀ token ∈ tokens, token.Known catalog) :
    Reads catalog (Token.print tokens).toList (tokens.flatMap Token.parts) [] := by
  rw [Token.print]
  induction tokens with
  | nil => exact fun start => ⟨start, rfl, rfl⟩
  | cons token tokens ih =>
    rw [List.forall_mem_cons] at hknown
    have hrest := ih hknown.2
    cases tokens with
    | nil =>
      have honly : Reads catalog token.text.toList token.parts [] :=
        reads_token h hknown.1 (by simp)
      simpa using honly
    | cons next tokens =>
      have hfirst : Reads catalog token.text.toList token.parts
          ([' '] ++ (" ".intercalate ((next :: tokens).map Token.text)).toList ++ []) :=
        reads_token h hknown.1 (by simp)
      rw [List.map_cons, List.map_cons, String.intercalate_cons_cons, ← List.map_cons,
        List.flatMap_cons]
      simpa using hfirst.append (reads_blank.append hrest)

/-- The tokens of a text that are printed and read again are all there, and nothing is skipped; they
are the same tokens unless a reference without a parameter stands in front of an integer in
brackets. -/
theorem ofText_print (h : catalog.Ordered) (text : String) :
    let tokens := (ofText catalog text).tokens
    let again := ofText catalog (Token.print tokens)
    again.skipped = [] ∧ (again.tokens = tokens ↔ ¬ Token.Ambiguous tokens) := by
  intro tokens again
  have hknown : ∀ token ∈ tokens, token.Known catalog := fun token => known_of_mem_ofText
  obtain ⟨htokens, hskipped⟩ := (reads_print h hknown).ofText
  refine ⟨hskipped, ?_⟩
  change (ofText catalog (Token.print tokens)).tokens = tokens ↔ _
  rw [htokens]
  exact (Token.fold_flatMap_parts tokens).2

def smallCatalog : Catalog := ⟨[("1a2", .ternary), ("1a", .accepting)]⟩

theorem ordered_smallCatalog : smallCatalog.Ordered := by
  have hinsert : ({} : Catalog).insertAll [("1a", .accepting), ("1a2", .ternary)] =
      .ok smallCatalog := by
    decide +kernel
  exact Catalog.ordered_of_insertAll hinsert

/-- Printed as `1a [ 5 ] +1 1a2[7]`, the first reference takes the five. -/
theorem ofText_print_small :
    smallCatalog.Ordered ∧
      (ofText smallCatalog "1a[0][5]+11a2[7]").tokens =
        [.tile "1a" .accepting 0, .openBracket, .integer 5, .closeBracket, .operator .singleEdge,
          .tile "1a2" .ternary 7] ∧
      (ofText smallCatalog "1a [ 5 ] +1 1a2[7]").skipped = [] ∧
      (ofText smallCatalog "1a [ 5 ] +1 1a2[7]").tokens ≠
        (ofText smallCatalog "1a[0][5]+11a2[7]").tokens := by
  have htokens : (ofText smallCatalog "1a[0][5]+11a2[7]").tokens =
      [.tile "1a" .accepting 0, .openBracket, .integer 5, .closeBracket, .operator .singleEdge,
        .tile "1a2" .ternary 7] := by decide +kernel
  have hambiguous : Token.Ambiguous (ofText smallCatalog "1a[0][5]+11a2[7]").tokens := by
    rw [htokens]
    exact ⟨"1a", .accepting, 5, [], _, rfl⟩
  have hprint : Token.print (ofText smallCatalog "1a[0][5]+11a2[7]").tokens =
      "1a [ 5 ] +1 1a2[7]" := by
    rw [htokens]
    decide
  obtain ⟨hskipped, hsame⟩ := ofText_print ordered_smallCatalog "1a[0][5]+11a2[7]"
  rw [hprint] at hskipped hsame
  exact ⟨ordered_smallCatalog, htokens, hskipped, fun heq => hsame.mp heq hambiguous⟩

end TokenStream

end Tilework
