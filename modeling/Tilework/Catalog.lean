import Tilework.Table
import Tilework.Tile.Basic

/-!
# Catalogs

A catalog gives every known tile name its class. Entries are kept with the longest names first,
names of one length in ascending order, so that the first entry whose name starts a text is the
longest one that does.
-/

namespace Tilework

def isNameChar (c : Char) : Bool := c.isAlphanum || c == '_' || c == '-' || c == '.'

/-- A name has only name characters, and one of them is not a digit. -/
def isName (cs : List Char) : Bool := cs.all isNameChar && cs.any (! ·.isDigit)

inductive CatalogFault where
  | duplicate (name : String) (existing requested : TileClass)
  | invalidName (name : String)
deriving DecidableEq, Repr

def CatalogFault.message : CatalogFault → String
  | duplicate name existing requested =>
    "tile `" ++ name ++ "` registered as both " ++ existing.name ++ " and " ++ requested.name
  | invalidName name =>
    "invalid tile name `" ++ name ++
      "`: names use letters, digits, `_`, `-`, `.` and contain a non-digit"

structure Catalog where
  entries : List (String × TileClass) := []
deriving DecidableEq, Repr, Inhabited

namespace Catalog

/-- Longer names come first, and of two names of one length the lesser. -/
def precedes (a b : String) : Bool :=
  b.utf8ByteSize < a.utf8ByteSize || (a.utf8ByteSize == b.utf8ByteSize && a < b)

def insertEntry (entry : String × TileClass) : List (String × TileClass) → List (String × TileClass)
  | [] => [entry]
  | e :: es => if precedes e.1 entry.1 then e :: insertEntry entry es else entry :: e :: es

def classOf? (catalog : Catalog) (name : String) : Option TileClass :=
  (catalog.entries.find? (·.1 = name)).map (·.2)

/-- Register a name. Registering it again under its class changes nothing. -/
def insert (catalog : Catalog) (name : String) (cls : TileClass) : Except CatalogFault Catalog :=
  if isName name.toList then
    match catalog.classOf? name with
    | none => .ok ⟨insertEntry (name, cls) catalog.entries⟩
    | some existing =>
      if existing = cls then .ok catalog else .error (.duplicate name existing cls)
  else .error (.invalidName name)

def insertAll (catalog : Catalog) (entries : List (String × TileClass)) :
    Except CatalogFault Catalog :=
  entries.foldlM (fun catalog (name, cls) => catalog.insert name cls) catalog

def names (catalog : Catalog) : List String := catalog.entries.map (·.1)

def namesIn (catalog : Catalog) (cls : TileClass) : List String :=
  ascending ((catalog.entries.filter (·.2 = cls)).map (·.1))

/-- The longest name that starts a text, with its class. -/
def longestPrefix? (catalog : Catalog) (text : List Char) : Option (String × TileClass) :=
  catalog.entries.find? fun e => e.1.toList.isPrefixOf text

end Catalog

end Tilework
