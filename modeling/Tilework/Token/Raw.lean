import Tilework.Catalog
import Tilework.Token.Basic

/-!
# Raw pieces of an expression

The text of an expression is cut into raw pieces, each as long as it can be: fixed symbols, runs of
digits, words, blanks, and single characters that mean nothing. Nothing of the text is lost.
-/

namespace Tilework

inductive Symbol where
  | operator (op : Operator)
  | openParen
  | closeParen
  | openBracket
  | closeBracket
deriving DecidableEq, Repr

def Symbol.token : Symbol → Token
  | operator op => .operator op
  | openParen => .openParen
  | closeParen => .closeParen
  | openBracket => .openBracket
  | closeBracket => .closeBracket

def Symbol.text (s : Symbol) : List Char := s.token.text.toList

inductive Raw where
  | symbol (s : Symbol)
  | digits (cs : List Char)
  | word (cs : List Char)
  | blank (c : Char)
  | unknown (c : Char)
deriving DecidableEq, Repr

namespace Raw

def text : Raw → List Char
  | symbol s => s.text
  | digits cs => cs
  | word cs => cs
  | blank c => [c]
  | unknown c => [c]

/-- A run of name characters is a number if it has digits only. -/
def ofRun (cs : List Char) : Raw := if cs.all Char.isDigit then digits cs else word cs

def isSpace (c : Char) : Bool := c == ' ' || c == '\t' || c == '\r' || c == '\n'

def ofChar (c : Char) : Raw :=
  if isSpace c then blank c
  else if c = '(' then symbol .openParen
  else if c = ')' then symbol .closeParen
  else if c = '[' then symbol .openBracket
  else if c = ']' then symbol .closeBracket
  else unknown c

/-- The raw pieces of a text, from left to right. -/
def split : List Char → List Raw
  | [] => []
  | '+' :: '+' :: cs => symbol (.operator .fanOut) :: split cs
  | '+' :: '1' :: cs => symbol (.operator .singleEdge) :: split cs
  | '+' :: cs => symbol (.operator .sizeMatched) :: split cs
  | c :: cs =>
    if isNameChar c then
      ofRun (c :: cs.takeWhile isNameChar) :: split (cs.dropWhile isNameChar)
    else ofChar c :: split cs
termination_by cs => cs.length
decreasing_by
  all_goals simp only [List.length_cons]
  all_goals first | omega | exact Nat.lt_succ_of_le (List.dropWhile_suffix _).length_le

end Raw

def utf8Length (cs : List Char) : Nat := cs.foldr (fun c n => c.utf8Size + n) 0

end Tilework
