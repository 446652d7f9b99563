import Mathlib.Data.List.Infix
import Tilework.Token.Stream

/-!
# Parameters among tokens

Whether a reference takes an integer as its parameter depends on the tokens alone, not on their
places. The text of a reference with a parameter is read as four tokens, which are put together
again. What is lost is a parameter zero, since it is not written: a reference without a parameter in
front of an integer in brackets takes it. Nothing else is.
-/

namespace Tilework

namespace Token

/-- Give each reference among tokens the integer in brackets behind it. -/
def fold : List Token → List Token
  | tile name cls _ :: openBracket :: integer n :: closeBracket :: rest =>
    tile name cls n :: fold rest
  | token :: rest => token :: fold rest
  | [] => []

/-- The tokens that the text of a token is read as, before parameters are attached. -/
def parts : Token → List Token
  | tile name cls param =>
    if param = 0 then [tile name cls 0]
    else [tile name cls 0, openBracket, integer param, closeBracket]
  | token => [token]

/-- Somewhere a reference without a parameter stands in front of an integer in brackets. -/
def Ambiguous (tokens : List Token) : Prop :=
  ∃ name cls n, [tile name cls 0, openBracket, integer n, closeBracket] <:+: tokens

def isTile : Token → Bool
  | tile _ _ _ => true
  | _ => false

variable {token : Token} {tokens rest : List Token} {name : String} {cls : TileClass}
  {n param : Nat}

theorem fold_cons (h : ∀ name cls param n rest, token = tile name cls param →
      tokens = openBracket :: integer n :: closeBracket :: rest → False) :
    fold (token :: tokens) = token :: fold tokens :=
  fold.eq_2 token tokens h

@[simp] theorem fold_cons_of_not_isTile (h : token.isTile = false) :
    fold (token :: tokens) = token :: fold tokens := by
  refine fold_cons fun name cls param n rest htoken _ => ?_
  rw [htoken] at h
  cases h

theorem fold_eq_self (h : openBracket ∉ tokens) : fold tokens = tokens := by
  induction tokens with
  | nil => rfl
  | cons token tokens ih =>
    rw [List.mem_cons, not_or] at h
    rw [fold_cons, ih h.2]
    rintro name cls param n rest - rfl
    exact h.2 List.mem_cons_self

theorem parts_of_not_isTile (h : token.isTile = false) : token.parts = [token] := by
  cases token with
  | tile name cls param => cases h
  | operator op => rfl
  | openParen => rfl
  | closeParen => rfl
  | openBracket => rfl
  | closeBracket => rfl
  | integer value => rfl

theorem eq_cons_of_flatMap_parts (htoken : token.isTile = false)
    (h : tokens.flatMap parts = token :: rest) :
    ∃ tokens', tokens = token :: tokens' ∧ tokens'.flatMap parts = rest := by
  cases tokens with
  | nil => cases h
  | cons first tokens =>
    rw [List.flatMap_cons] at h
    by_cases hfirst : first.isTile = true
    · have hhead : ∃ name cls param more, first.parts = tile name cls param :: more := by
        cases first with
        | tile name cls param =>
          rw [parts]
          split
          · exact ⟨name, cls, 0, _, rfl⟩
          · exact ⟨name, cls, 0, _, rfl⟩
        | _ => cases hfirst
      obtain ⟨name, cls, param, more, hparts⟩ := hhead
      rw [hparts, List.cons_append] at h
      rw [← (List.cons.inj h).1] at htoken
      cases htoken
    · rw [parts_of_not_isTile (by simpa using hfirst), List.singleton_append] at h
      obtain ⟨rfl, hrest⟩ := List.cons.inj h
      exact ⟨tokens, rfl, hrest⟩

theorem eq_of_flatMap_parts
    (h : tokens.flatMap parts = openBracket :: integer n :: closeBracket :: rest) :
    ∃ tokens', tokens = openBracket :: integer n :: closeBracket :: tokens' := by
  obtain ⟨_, rfl, hinteger⟩ := eq_cons_of_flatMap_parts rfl h
  obtain ⟨_, rfl, hclosed⟩ := eq_cons_of_flatMap_parts rfl hinteger
  obtain ⟨behind, rfl, -⟩ := eq_cons_of_flatMap_parts rfl hclosed
  exact ⟨behind, rfl⟩

theorem ambiguous_cons (h : ∀ name cls n rest, token = tile name cls 0 →
      tokens = openBracket :: integer n :: closeBracket :: rest → False) :
    Ambiguous (token :: tokens) ↔ Ambiguous tokens := by
  refine exists_congr fun name => exists_congr fun cls => exists_congr fun n => ?_
  rw [List.infix_cons_iff, or_iff_right]
  rintro ⟨rest, hrest⟩
  obtain ⟨htoken, htokens⟩ := List.cons.inj hrest
  exact h name cls n rest htoken.symm htokens.symm

theorem fold_parts_tile (hparam : param ≠ 0) :
    fold ((tile name cls param).parts ++ rest) = tile name cls param :: fold rest := by
  rw [parts, if_neg hparam]
  rfl

/-- A token that takes no integer from those behind it stays in front of what they fold to. -/
theorem fold_flatMap_cons (hother : ∀ name cls param n rest, token = tile name cls param →
      tokens = openBracket :: integer n :: closeBracket :: rest → False) :
    fold ((token :: tokens).flatMap parts) = token :: fold (tokens.flatMap parts) := by
  rw [List.flatMap_cons]
  by_cases htile : token.isTile = true
  · cases token with
    | tile name cls param =>
      by_cases hparam : param = 0
      · subst hparam
        refine fold_cons fun name' cls' param' n rest htoken hrest => ?_
        obtain ⟨tokens', htokens⟩ := eq_of_flatMap_parts hrest
        exact hother name' cls' param' n tokens' htoken htokens
      · exact fold_parts_tile hparam
    | _ => cases htile
  · have hplain : token.isTile = false := by simpa using htile
    rw [parts_of_not_isTile hplain]
    exact fold_cons_of_not_isTile hplain

/-- Folding what tokens are read as gives no more of them, and gives the tokens themselves unless
they are ambiguous. -/
theorem fold_flatMap_parts (tokens : List Token) :
    (fold (tokens.flatMap parts)).length ≤ tokens.length ∧
      (fold (tokens.flatMap parts) = tokens ↔ ¬ Ambiguous tokens) := by
  induction tokens using fold.induct with
  | case1 name cls param n rest ih =>
    obtain ⟨hlength, hiff⟩ := ih
    by_cases hparam : param = 0
    · -- The reference takes the integer, and four tokens become one.
      subst hparam
      have hfold : fold ((tile name cls 0 :: openBracket :: integer n :: closeBracket ::
          rest).flatMap parts) = tile name cls n :: fold (rest.flatMap parts) := rfl
      have hambiguous : Ambiguous (tile name cls 0 :: openBracket :: integer n :: closeBracket ::
          rest) := ⟨name, cls, n, (List.prefix_append _ rest).isInfix⟩
      rw [hfold]
      refine ⟨by simp only [List.length_cons]; omega, iff_of_false ?_ (not_not.mpr hambiguous)⟩
      intro heq
      have hlengths := congrArg List.length heq
      simp only [List.length_cons] at hlengths
      omega
    · rw [List.flatMap_cons, fold_parts_tile hparam]
      have hfold : fold ((openBracket :: integer n :: closeBracket :: rest).flatMap parts) =
          openBracket :: integer n :: closeBracket :: fold (rest.flatMap parts) := rfl
      have hambiguous : Ambiguous (tile name cls param :: openBracket :: integer n ::
          closeBracket :: rest) ↔ Ambiguous rest := by
        rw [ambiguous_cons fun _ _ _ _ h _ => hparam (Token.tile.inj h).2.2]
        rw [ambiguous_cons (by simp), ambiguous_cons (by simp), ambiguous_cons (by simp)]
      rw [hfold, hambiguous, ← hiff]
      refine ⟨by simp only [List.length_cons]; omega, by simp⟩
  | case2 token tokens hother ih =>
    obtain ⟨hlength, hiff⟩ := ih
    rw [fold_flatMap_cons hother,
      ambiguous_cons fun name cls n rest htoken => hother name cls 0 n rest htoken, ← hiff]
    refine ⟨by simp only [List.length_cons]; omega, by simp⟩
  | case3 =>
    refine ⟨Nat.le_refl _, iff_of_true rfl ?_⟩
    rintro ⟨name, cls, n, h⟩
    cases List.infix_nil.mp h

end Token

namespace TokenStream

def tokens (stream : TokenStream) : List Token := stream.lexemes.map (·.token)

@[simp] theorem tokens_append (s t : TokenStream) : (s.append t).tokens = s.tokens ++ t.tokens :=
  List.map_append

theorem map_token_attachParameters (lexemes : List Lexeme) :
    (attachParameters lexemes).map (·.token) = Token.fold (lexemes.map (·.token)) := by
  induction lexemes using attachParameters.induct with
  | case1 name cls param span opened n digits last rest ih =>
    rw [attachParameters, List.map_cons, ih]
    rfl
  | case2 lexeme rest hother ih =>
    rw [attachParameters, List.map_cons, List.map_cons, ih, Token.fold_cons]
    · intro name cls param n tokens htoken htokens
      obtain ⟨opened, rest, rfl, hopened, htokens⟩ := List.map_eq_cons_iff.mp htokens
      obtain ⟨digits, rest, rfl, hdigits, htokens⟩ := List.map_eq_cons_iff.mp htokens
      obtain ⟨closed, rest, rfl, hclosed, htokens⟩ := List.map_eq_cons_iff.mp htokens
      obtain ⟨_, span⟩ := lexeme
      obtain ⟨_, place⟩ := opened
      obtain ⟨_, middle⟩ := digits
      obtain ⟨_, last⟩ := closed
      subst htoken hopened hdigits hclosed
      exact hother name cls param span place n middle last rest rfl rfl
    · exact hother
  | case3 => rfl

theorem mem_attachParameters {lexeme : Lexeme} {lexemes : List Lexeme}
    (h : lexeme ∈ attachParameters lexemes) :
    lexeme ∈ lexemes ∨ ∃ name cls param n, ∃ named opened number closed : Span,
      lexeme = ⟨.tile name cls n, ⟨named.start, closed.stop⟩⟩ ∧
        [⟨.tile name cls param, named⟩, ⟨.openBracket, opened⟩, ⟨.integer n, number⟩,
          ⟨.closeBracket, closed⟩] <:+: lexemes := by
  induction lexemes using attachParameters.induct with
  | case1 name cls param named opened n number closed rest ih =>
    rw [attachParameters, List.mem_cons] at h
    rcases h with rfl | h
    · exact Or.inr ⟨name, cls, param, n, named, opened, number, closed, rfl,
        (List.prefix_append _ rest).isInfix⟩
    · rcases ih h with hmem | ⟨name', cls', param', n', named', opened', number', closed', heq, hin⟩
      · exact Or.inl (by simp [hmem])
      · refine Or.inr ⟨name', cls', param', n', named', opened', number', closed', heq, ?_⟩
        exact hin.trans (List.suffix_append [_, _, _, _] rest).isInfix
  | case2 first rest hother ih =>
    rw [attachParameters, List.mem_cons] at h
    · rcases h with rfl | h
      · exact Or.inl List.mem_cons_self
      · rcases ih h with hmem | ⟨name, cls, param, n, named, opened, number, closed, heq, hin⟩
        · exact Or.inl (List.mem_cons_of_mem _ hmem)
        · exact Or.inr ⟨name, cls, param, n, named, opened, number, closed, heq,
            hin.trans (List.suffix_cons first rest).isInfix⟩
    · exact hother
  | case3 => cases h

theorem tokens_ofText (catalog : Catalog) (text : String) :
    (ofText catalog text).tokens =
      Token.fold (ofPieces catalog 0 (Raw.split text.toList)).tokens :=
  map_token_attachParameters _

end TokenStream

end Tilework
