import Tilework.Text.Basic

/-!
# Tiles

A tile is a fragment of a timed automaton: locations, transitions between them, and a block of
declarations. Locations with a role are its boundary, through which it is joined to other tiles;
their order is the order in which they are joined. Tiles belong to classes. The assignments of a
transition are a list in one text, which has a normal form. A tile can be listed for a reader, with
a head line and one line for every location and transition.
-/

namespace Tilework

/-- A class groups tiles by the boundary they promise. Its name is also the name of the directory
that holds the documents of the class. -/
inductive TileClass where
  | accepting
  | binary
  | ternary
  | random
deriving DecidableEq, Repr

namespace TileClass

def all : List TileClass := [accepting, binary, ternary, random]

def name : TileClass → String
  | accepting => "accepting"
  | binary => "binary"
  | ternary => "ternary"
  | random => "random"

def ofName? (name : String) : Option TileClass := all.find? (·.name = name)

end TileClass

inductive Role where
  | entry
  | exit
deriving DecidableEq, Repr

def Role.name : Role → String
  | entry => "in"
  | exit => "out"

structure Location where
  id : String
  invariant : Option String := none
  /-- What must be set up on entering the location, as assignments between semicolons. -/
  comment : Option String := none
  isFinal : Bool := false
  role : Option Role := none
deriving DecidableEq, Repr, Inhabited

structure Transition where
  id : String
  source : String
  target : String
  guard : Option String := none
  assignment : Option String := none
deriving DecidableEq, Repr, Inhabited

structure Tile where
  name : String := ""
  declaration : String := ""
  /-- The intervals that the tile allows for the free parameter. -/
  parameterBounds : Option String := none
  locations : List Location := []
  transitions : List Transition := []
deriving DecidableEq, Repr, Inhabited

/-- Take the role from the first location with the given id. -/
def clearRole : List Location → String → List Location
  | [], _ => []
  | l :: ls, id => if l.id = id then { l with role := none } :: ls else l :: clearRole ls id

theorem map_id_clearRole (ls : List Location) (id : String) :
    (clearRole ls id).map (·.id) = ls.map (·.id) := by
  induction ls with
  | nil => rfl
  | cons l ls ih =>
    rw [clearRole]
    split <;> simp [ih]

/-- One block of declarations after another. A blank block adds nothing. -/
def joinDeclarations (first second : String) : String :=
  if Text.trim second.toList = [] then first
  else if first = "" then second
  else first ++ "\n" ++ second

/-- The trimmed parts of a list of assignments that are not empty. -/
def assignmentParts (text : List Char) : List (List Char) :=
  ((Text.splitOn ';' text).map Text.trim).filter (· ≠ [])

/-- The normal form of a list of assignments, if it holds any. -/
def normalizeAssignment (text : String) : Option String :=
  match assignmentParts text.toList with
  | [] => none
  | parts => some (String.ofList ([';', ' '].intercalate parts))

namespace Tile

def locationIds (tile : Tile) : List String := tile.locations.map (·.id)

def transitionIds (tile : Tile) : List String := tile.transitions.map (·.id)

/-- The ids of the locations with a role, in order. -/
def boundary (tile : Tile) (role : Role) : List String :=
  (tile.locations.filter (·.role = some role)).map (·.id)

/-- The first location with the given id. -/
def location? (tile : Tile) (id : String) : Option Location := tile.locations.find? (·.id = id)

/-- Take a location out of the boundary and keep it. -/
def clearRole (tile : Tile) (id : String) : Tile :=
  { tile with locations := Tilework.clearRole tile.locations id }

/-- Append the locations, transitions and declarations of another tile. -/
def absorb (tile other : Tile) : Tile :=
  { tile with
    declaration := joinDeclarations tile.declaration other.declaration
    locations := tile.locations ++ other.locations
    transitions := tile.transitions ++ other.transitions }

/-- A tile without a name takes the name under which it was asked for. -/
def named (tile : Tile) (name : String) : Tile :=
  if tile.name = "" then { tile with name } else tile

@[simp] theorem locationIds_clearRole (tile : Tile) (id : String) :
    (tile.clearRole id).locationIds = tile.locationIds := map_id_clearRole _ _

@[simp] theorem locations_absorb (a b : Tile) :
    (a.absorb b).locations = a.locations ++ b.locations := rfl

@[simp] theorem transitions_absorb (a b : Tile) :
    (a.absorb b).transitions = a.transitions ++ b.transitions := rfl

end Tile

def Location.line (l : Location) : String :=
  "  loc " ++ l.id ++ (match l.role with | some role => " [" ++ role.name ++ "]" | none => "") ++
    (if l.isFinal then " final" else "") ++ "\n"

def Transition.line (t : Transition) : String :=
  "  edge " ++ t.id ++ ": " ++ t.source ++ " -> " ++ t.target ++
    (match t.guard with | some guard => " if " ++ guard | none => "") ++
    (match t.assignment with | some assignment => " do " ++ assignment | none => "") ++ "\n"

def Tile.listing (tile : Tile) : String :=
  "tile " ++ tile.name ++ ": " ++ toString tile.locations.length ++ " locations, " ++
    toString tile.transitions.length ++ " transitions\n" ++
    String.join (tile.locations.map Location.line) ++
    String.join (tile.transitions.map Transition.line)

end Tilework
