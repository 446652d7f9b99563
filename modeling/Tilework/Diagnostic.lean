import Tilework.Token.Basic

/-!
# Diagnostics

A run recovers from tokens without a meaning, from unbalanced parentheses and from tiles left over.
Each is reported by a warning at a place of the text; a warning has a code and may have a hint.
-/

namespace Tilework

inductive Warning where
  /-- A bracket or an integer that belongs to no tile reference. -/
  | strayToken (token : Token)
  | unbalancedClose
  | unclosedOpen
  | emptyGroup
  /-- Tiles left in a group beside its result. -/
  | leftoverInGroup (count : Nat)
  /-- Tiles left outside of all groups beside the result. -/
  | leftover (count : Nat)
deriving DecidableEq, Repr

namespace Warning

def code : Warning → String
  | strayToken _ => "W0001"
  | unbalancedClose => "W0002"
  | unclosedOpen => "W0003"
  | emptyGroup => "W0004"
  | leftoverInGroup _ => "W0005"
  | leftover _ => "W0005"

def message : Warning → String
  | strayToken token => "token `" ++ token.text ++ "` has no composition action; ignored"
  | unbalancedClose => "`)` has no matching `(`"
  | unclosedOpen => "`(` is never closed"
  | emptyGroup => "empty parenthesised group"
  | leftoverInGroup count => toString count ++
    " operand tile(s) left without an operator in group; group result is the last one"
  | leftover count =>
    toString count ++ " operand tile(s) left without an operator; result is the last one"

def hint? : Warning → Option String
  | strayToken _ => some "a bracketed parameter must directly follow a tile name"
  | unclosedOpen => some "closed implicitly at end of input"
  | unbalancedClose | emptyGroup | leftoverInGroup _ | leftover _ => none

end Warning

structure Diagnostic where
  warning : Warning
  span : Span
deriving DecidableEq, Repr

/-- The message with its code, and the hint on a line of its own. -/
def Diagnostic.text (d : Diagnostic) : String :=
  "warning[" ++ d.warning.code ++ "]: " ++ d.warning.message ++
    match d.warning.hint? with
    | some hint => "\n  hint: " ++ hint
    | none => ""

end Tilework
