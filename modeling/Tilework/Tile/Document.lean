import Tilework.Json.Reader
import Tilework.Json.Value
import Tilework.Tile.Basic

/-!
# Tile documents

A tile document holds the fields of a tile. Fields may come in any order, may be left out where
they have a default, and unknown fields are ignored; a record may also be written as the list of
its fields in order. `Tile.toValue` writes a document and `Tile.ofDocument` reads one.
-/

namespace Tilework

open Json

def Role.ofName (name : String) : Except DocumentFault Role :=
  if name = "in" then .ok .entry
  else if name = "out" then .ok .exit
  else .error (.unknownRole name)

/-- A role is written by its name, or as an object whose only key is its name. -/
def readRole : Reader Role := fun cs =>
  match skipBlanks cs with
  | [] => .error .ended
  | '"' :: cs => do
    let (name, cs) ← stringRest .plain cs
    return (← Role.ofName (String.ofList name), cs)
  | '\x7b' :: cs => do
    let (name, cs) ← stringRest .plain (← openingQuote cs)
    let role ← Role.ofName (String.ofList name)
    let ((), cs) ← readNull (← colon cs)
    return (role, ← closing '\x7d' cs)
  | _ => .error .malformed

def require {α : Type} (name : String) : Option α → Except DocumentFault α
  | some value => .ok value
  | none => .error (.missingField name)

namespace Location

structure Fields where
  id : Option String := none
  invariant : Option (Option String) := none
  comment : Option (Option String) := none
  isFinal : Option Bool := none
  role : Option (Option Role) := none

def columns : List (Column Fields) :=
  [⟨"id", true, readText, Fields.id, fun v l => { l with id := some v }⟩,
    ⟨"invariant", false, readOptional readText, Fields.invariant,
      fun v l => { l with invariant := some v }⟩,
    ⟨"comment", false, readOptional readText, Fields.comment,
      fun v l => { l with comment := some v }⟩,
    ⟨"final", false, readBool, Fields.isFinal, fun v l => { l with isFinal := some v }⟩,
    ⟨"role", false, readOptional readRole, Fields.role, fun v l => { l with role := some v }⟩]

def Fields.complete (l : Fields) : Except DocumentFault Location := do
  return {
    id := ← require "id" l.id
    invariant := l.invariant.getD none
    comment := l.comment.getD none
    isFinal := l.isFinal.getD false
    role := l.role.getD none }

def read : Reader Location :=
  readRecord "struct Location" {} columns Fields.complete

end Location

namespace Transition

structure Fields where
  id : Option String := none
  source : Option String := none
  target : Option String := none
  guard : Option (Option String) := none
  assignment : Option (Option String) := none

def columns : List (Column Fields) :=
  [⟨"id", true, readText, Fields.id, fun v t => { t with id := some v }⟩,
    ⟨"source", true, readText, Fields.source, fun v t => { t with source := some v }⟩,
    ⟨"target", true, readText, Fields.target, fun v t => { t with target := some v }⟩,
    ⟨"guard", false, readOptional readText, Fields.guard, fun v t => { t with guard := some v }⟩,
    ⟨"assignment", false, readOptional readText, Fields.assignment,
      fun v t => { t with assignment := some v }⟩]

def Fields.complete (t : Fields) : Except DocumentFault Transition := do
  return {
    id := ← require "id" t.id
    source := ← require "source" t.source
    target := ← require "target" t.target
    guard := t.guard.getD none
    assignment := t.assignment.getD none }

def read : Reader Transition :=
  readRecord "struct Transition" {} columns Fields.complete

end Transition

namespace Tile

structure Fields where
  name : Option String := none
  declaration : Option String := none
  parameterBounds : Option (Option String) := none
  locations : Option (List Location) := none
  transitions : Option (List Transition) := none

def columns : List (Column Fields) :=
  [⟨"name", false, readText, Fields.name, fun v t => { t with name := some v }⟩,
    ⟨"declaration", false, readText, Fields.declaration,
      fun v t => { t with declaration := some v }⟩,
    ⟨"parameter_bounds", false, readOptional readText, Fields.parameterBounds,
      fun v t => { t with parameterBounds := some v }⟩,
    ⟨"locations", false, readList Location.read, Fields.locations,
      fun v t => { t with locations := some v }⟩,
    ⟨"transitions", false, readList Transition.read, Fields.transitions,
      fun v t => { t with transitions := some v }⟩]

def Fields.complete (t : Fields) : Tile where
  name := t.name.getD ""
  declaration := t.declaration.getD ""
  parameterBounds := t.parameterBounds.getD none
  locations := t.locations.getD []
  transitions := t.transitions.getD []

def read : Reader Tile :=
  readRecord "struct Tile" {} columns fun fields => .ok fields.complete

def ofDocument (text : String) : Except DocumentFault Tile := readAll read text

end Tile

/-- A member that is left out when there is no value. -/
def optionalMember (key : String) : Option String → List (String × Value)
  | some text => [(key, .text text)]
  | none => []

def Location.toValue (l : Location) : Value :=
  .object <| ("id", .text l.id) :: optionalMember "invariant" l.invariant ++
    optionalMember "comment" l.comment ++ (if l.isFinal then [("final", .bool true)] else []) ++
    optionalMember "role" (l.role.map Role.name)

def Transition.toValue (t : Transition) : Value :=
  .object <| ("id", .text t.id) :: ("source", .text t.source) :: ("target", .text t.target) ::
    optionalMember "guard" t.guard ++ optionalMember "assignment" t.assignment

/-- The document of a tile. Defaults are left out, except for the name and the two lists. -/
def Tile.toValue (tile : Tile) : Value :=
  .object <| ("name", .text tile.name) ::
    (if tile.declaration = "" then [] else [("declaration", .text tile.declaration)]) ++
    optionalMember "parameter_bounds" tile.parameterBounds ++
    [("locations", .list (tile.locations.map Location.toValue)),
      ("transitions", .list (tile.transitions.map Transition.toValue))]

end Tilework
