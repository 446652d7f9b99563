import Tilework.Proofs.Recovery

/-!
# Bracketings

A bracketing of a text gives every parenthesis its partner, if it has one. In a passage all of them
do. An opening parenthesis without a partner begins a group that goes on to the end of the text, and
a closing one without a partner stands outside of all groups. Every text has a bracketing.
-/

namespace Tilework

def Token.isParenthesis : Token → Bool
  | openParen | closeParen => true
  | tile _ _ _ | operator _ | openBracket | closeBracket | integer _ => false

/-- A text in which every parenthesis has its partner. -/
inductive Passage where
  | nil
  | word (lexeme : Lexeme) (plain : lexeme.token.isParenthesis = false) (rest : Passage)
  | group (opened closed : Span) (inner rest : Passage)

/-- A text in which every closing parenthesis has its partner. -/
inductive OpenPassage where
  | closed (passage : Passage)
  | unclosed (before : Passage) (opened : Span) (inner : OpenPassage)

/-- A text, with the closing parentheses that have no partner. -/
inductive Bracketing where
  | last (passage : OpenPassage)
  | surplus (before : Passage) (closed : Span) (rest : Bracketing)

def Passage.lexemes : Passage → List Lexeme
  | nil => []
  | word lexeme _ rest => lexeme :: rest.lexemes
  | group opened closed inner rest =>
    ⟨.openParen, opened⟩ :: inner.lexemes ++ ⟨.closeParen, closed⟩ :: rest.lexemes

namespace OpenPassage

def lexemes : OpenPassage → List Lexeme
  | closed passage => passage.lexemes
  | unclosed before opened inner => before.lexemes ++ ⟨.openParen, opened⟩ :: inner.lexemes

/-- The number of groups that are never closed. -/
def depth : OpenPassage → Nat
  | closed _ => 0
  | unclosed _ _ inner => inner.depth + 1

/-- Put something in front of a text. -/
def mapFirst (f : Passage → Passage) : OpenPassage → OpenPassage
  | closed passage => closed (f passage)
  | unclosed before opened inner => unclosed (f before) opened inner

end OpenPassage

namespace Bracketing

def lexemes : Bracketing → List Lexeme
  | last passage => passage.lexemes
  | surplus before closed rest => before.lexemes ++ ⟨.closeParen, closed⟩ :: rest.lexemes

def depth : Bracketing → Nat
  | last passage => passage.depth
  | surplus _ _ rest => rest.depth

def mapFirst (f : Passage → Passage) : Bracketing → Bracketing
  | last passage => last (passage.mapFirst f)
  | surplus before closed rest => surplus (f before) closed rest

end Bracketing

theorem OpenPassage.lexemes_mapFirst {f : Passage → Passage} {front : List Lexeme}
    (h : ∀ passage, (f passage).lexemes = front ++ passage.lexemes) (passage : OpenPassage) :
    (passage.mapFirst f).lexemes = front ++ passage.lexemes := by
  cases passage with
  | closed passage => exact h passage
  | unclosed before opened inner => simp [mapFirst, lexemes, h]

theorem Bracketing.lexemes_mapFirst {f : Passage → Passage} {front : List Lexeme}
    (h : ∀ passage, (f passage).lexemes = front ++ passage.lexemes) (b : Bracketing) :
    (b.mapFirst f).lexemes = front ++ b.lexemes := by
  cases b with
  | last passage => exact OpenPassage.lexemes_mapFirst h passage
  | surplus before closed rest => simp [mapFirst, lexemes, h]

theorem Bracketing.exists_cons_of_plain {lexeme : Lexeme} (b : Bracketing)
    (plain : lexeme.token.isParenthesis = false) :
    ∃ b' : Bracketing, b'.lexemes = lexeme :: b.lexemes := by
  have hfront : ∀ passage : Passage,
      (Passage.word lexeme plain passage).lexemes = [lexeme] ++ passage.lexemes := fun _ => rfl
  exact ⟨b.mapFirst (.word lexeme plain), lexemes_mapFirst hfront b⟩

theorem Bracketing.exists_cons (lexeme : Lexeme) (b : Bracketing) :
    ∃ b' : Bracketing, b'.lexemes = lexeme :: b.lexemes := by
  rcases lexeme with ⟨token, span⟩
  cases token with
  | openParen =>
    cases b with
    | last passage => exact ⟨last (.unclosed .nil span passage), rfl⟩
    | surplus before closed rest =>
      refine ⟨rest.mapFirst (.group span closed before), ?_⟩
      have hfront : ∀ passage : Passage, (Passage.group span closed before passage).lexemes =
          (⟨.openParen, span⟩ :: before.lexemes ++ [⟨.closeParen, closed⟩]) ++ passage.lexemes := by
        simp [Passage.lexemes]
      rw [lexemes_mapFirst hfront]
      simp [lexemes]
  | closeParen => exact ⟨surplus .nil span b, rfl⟩
  | tile name cls param => exact b.exists_cons_of_plain rfl
  | operator op => exact b.exists_cons_of_plain rfl
  | openBracket => exact b.exists_cons_of_plain rfl
  | closeBracket => exact b.exists_cons_of_plain rfl
  | integer value => exact b.exists_cons_of_plain rfl

theorem exists_bracketing (lexemes : List Lexeme) : ∃ b : Bracketing, b.lexemes = lexemes := by
  induction lexemes with
  | nil => exact ⟨.last (.closed .nil), rfl⟩
  | cons lexeme lexemes ih =>
    obtain ⟨b, rfl⟩ := ih
    exact b.exists_cons lexeme

theorem Token.depth_of_not_isParenthesis {token : Token} (h : token.isParenthesis = false)
    (depth : Nat) : token.depth depth = depth := by
  cases token <;> first | rfl | cases h

theorem openGroups_append (depth : Nat) (xs ys : List Lexeme) :
    openGroups depth (xs ++ ys) = openGroups (openGroups depth xs) ys :=
  List.foldl_append

theorem Passage.openGroups_lexemes (passage : Passage) (depth : Nat) :
    openGroups depth passage.lexemes = depth := by
  induction passage generalizing depth with
  | nil => rfl
  | word lexeme plain rest ih =>
    have hfirst : openGroups depth (lexeme :: rest.lexemes) =
        openGroups (lexeme.token.depth depth) rest.lexemes := rfl
    rw [lexemes, hfirst, Token.depth_of_not_isParenthesis plain, ih]
  | group opened closed inner rest ihi ihr =>
    have hopen : openGroups depth (⟨.openParen, opened⟩ :: inner.lexemes) =
        openGroups (depth + 1) inner.lexemes := rfl
    have hclose : openGroups (depth + 1) (⟨.closeParen, closed⟩ :: rest.lexemes) =
        openGroups depth rest.lexemes := rfl
    rw [lexemes, openGroups_append, hopen, ihi, hclose, ihr]

theorem OpenPassage.openGroups_lexemes (passage : OpenPassage) (depth : Nat) :
    openGroups depth passage.lexemes = depth + passage.depth := by
  induction passage generalizing depth with
  | closed passage => exact passage.openGroups_lexemes depth
  | unclosed before opened inner ih =>
    have hopen : openGroups depth (⟨.openParen, opened⟩ :: inner.lexemes) =
        openGroups (depth + 1) inner.lexemes := rfl
    rw [lexemes, openGroups_append, before.openGroups_lexemes, hopen, ih, OpenPassage.depth]
    omega

theorem Bracketing.openGroups_lexemes (b : Bracketing) : openGroups 0 b.lexemes = b.depth := by
  induction b with
  | last passage =>
    rw [lexemes, passage.openGroups_lexemes, Nat.zero_add]
    rfl
  | surplus before closed rest ih =>
    have hclose : openGroups 0 (⟨.closeParen, closed⟩ :: rest.lexemes) =
        openGroups 0 rest.lexemes := rfl
    rw [lexemes, openGroups_append, before.openGroups_lexemes, hclose, ih]
    rfl

end Tilework
