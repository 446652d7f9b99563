import Tilework.Tile.Basic

/-!
# Well-formed tiles

`Tile.validate` asks that location ids are distinct, that transition ids are distinct, and that
transitions end at locations of the tile; it reports the first defect. `TileClass.checkShape` asks
for the boundary that a class promises: the root of a fan-out has exactly two exits.
-/

namespace Tilework

inductive ShapeDefect where
  | duplicateLocation (id : String)
  | duplicateTransition (id : String)
  | danglingEndpoint (transition location : String)
  | boundary (cls : TileClass) (exits : Nat)
deriving DecidableEq, Repr

def ShapeDefect.message : ShapeDefect → String
  | duplicateLocation id => "duplicate location id `" ++ id ++ "`"
  | duplicateTransition id => "duplicate transition id `" ++ id ++ "`"
  | danglingEndpoint transition location =>
    "transition `" ++ transition ++ "` references unknown location `" ++ location ++ "`"
  | boundary cls exits =>
    cls.name ++ " tile needs exactly 2 `out` locations, found " ++ toString exits

/-- The first text that already occurred, here or among those seen before. -/
def firstRepeat? (seen : List String) : List String → Option String
  | [] => none
  | id :: ids => if id ∈ seen then some id else firstRepeat? (id :: seen) ids

namespace Tile

/-- The first transition with a repeated id or an unknown endpoint. -/
def checkTransitions (ids seen : List String) : List Transition → Except ShapeDefect Unit
  | [] => .ok ()
  | t :: ts =>
    if t.id ∈ seen then .error (.duplicateTransition t.id)
    else if t.source ∉ ids then .error (.danglingEndpoint t.id t.source)
    else if t.target ∉ ids then .error (.danglingEndpoint t.id t.target)
    else checkTransitions ids (t.id :: seen) ts

def validate (tile : Tile) : Except ShapeDefect Unit :=
  match firstRepeat? [] tile.locationIds with
  | some id => .error (.duplicateLocation id)
  | none => checkTransitions tile.locationIds [] tile.transitions

end Tile

def TileClass.checkShape (cls : TileClass) (tile : Tile) : Except ShapeDefect Unit :=
  match cls with
  | binary =>
    let exits := (tile.boundary .exit).length
    if exits = 2 then .ok () else .error (.boundary binary exits)
  | accepting | ternary | random => .ok ()

end Tilework
