import Tilework.Number.Decimal
import Tilework.Text.Quoted

/-!
# Faults of documents

A document may end too early, may not be well formed, or may hold something else than was asked
for. The first fault from the left is reported.
-/

namespace Tilework

/-- What stands in a document where something else is expected. -/
inductive Found where
  | null
  | bool (value : Bool)
  | integer (value : Int)
  | number (value : Binary64)
  | text (value : String)
  | list
  | object
deriving DecidableEq, Repr

def Found.description : Found → String
  | null => "null"
  | bool value => "boolean `" ++ toString value ++ "`"
  | integer value => "integer `" ++ toString value ++ "`"
  | number value => "floating point `" ++ value.documentText ++ "`"
  | text value => "string " ++ Text.quoted value
  | list => "sequence"
  | object => "map"

inductive DocumentFault where
  /-- The text ends inside the document. -/
  | ended
  /-- The text is no document. -/
  | malformed
  | missingField (name : String)
  | duplicateField (name : String)
  | wrongType (found : Found) (expected : String)
  | unknownRole (name : String)
  | wrongLength (length : Nat) (expected : String)
deriving DecidableEq, Repr

/-- The words for what a document holds at a wrong place. A text that is no document has none. -/
def DocumentFault.reason? : DocumentFault → Option String
  | ended | malformed => none
  | missingField name => some ("missing field `" ++ name ++ "`")
  | duplicateField name => some ("duplicate field `" ++ name ++ "`")
  | wrongType found expected =>
    some ("invalid type: " ++ found.description ++ ", expected " ++ expected)
  | unknownRole name => some ("unknown variant `" ++ name ++ "`, expected `in` or `out`")
  | wrongLength length expected =>
    some ("invalid length " ++ toString length ++ ", expected " ++ expected)

/-- How a reader of documents tells of the fault of the document at a path. What it tells also
depends on where the fault stands in the document. -/
abbrev DocumentWording := (path : String) → DocumentFault → String

end Tilework
