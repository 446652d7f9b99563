import Tilework.Catalog
import Tilework.Token.Basic

/-!
# Words and tile names

A word may hold several tile names one after another. It is read from the left: where a name of the
catalog starts, the longest one is taken; other characters are skipped, and neighbouring skipped
characters form one run.
-/

namespace Tilework

/-- A part of a word: a name of the catalog or a run of skipped characters. -/
inductive WordPart where
  | tile (name : String) (cls : TileClass)
  | skipped (cs : List Char)
deriving DecidableEq, Repr

namespace WordPart

def text : WordPart → List Char
  | tile name _ => name.toList
  | skipped cs => cs

/-- Put a skipped character in front, into the first run if there is one. -/
def skip (c : Char) : List WordPart → List WordPart
  | skipped cs :: parts => skipped (c :: cs) :: parts
  | parts => skipped [c] :: parts

/-- The parts of a word whose first `covered` characters belong to a name already taken. -/
def split (catalog : Catalog) : (covered : Nat) → List Char → List WordPart
  | _, [] => []
  | covered + 1, _ :: cs => split catalog covered cs
  | 0, c :: cs =>
    match catalog.longestPrefix? (c :: cs) with
    | some (name, cls) => tile name cls :: split catalog (name.length - 1) cs
    | none => skip c (split catalog 0 cs)

def ofWord (catalog : Catalog) (word : List Char) : List WordPart := split catalog 0 word

end WordPart

end Tilework
