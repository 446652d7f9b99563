import Tilework.Bound.Tracker
import Tilework.Fault
import Tilework.Tile.Basic

/-!
# Merging tiles

Applying an operator merges its tiles into one: their locations and transitions one after another,
then an edge for every joint. The ends of an edge leave the boundary. What the entry of a joint
wants set up is assigned on the edge. The bound labels of the tiles are fed to a tracker.
-/

namespace Tilework

/-- The edge of a joint. Its assignment is the comment of the entry. -/
def Joint.edge (joint : Joint) (tile : Tile) : Transition where
  id := joint.exit ++ "->" ++ joint.entry
  source := joint.exit
  target := joint.entry
  assignment := do normalizeAssignment (← (← tile.location? joint.entry).comment)

/-- Add the edge of a joint and take both of its ends out of the boundary. -/
def Tile.join (tile : Tile) (joint : Joint) : Tile :=
  let joined := { tile with transitions := tile.transitions ++ [joint.edge tile] }
  (joined.clearRole joint.exit).clearRole joint.entry

namespace Operator

/-- The operator stands behind the first name, in parentheses with all of them. -/
def compositeName (op : Operator) : List String → String
  | [] => ""
  | root :: rest => "(" ++ root ++ " " ++ op.symbol ++ " " ++ " ".intercalate rest ++ ")"

/-- The merged tile, before it is joined. Bound labels are left behind. -/
def absorbAll (op : Operator) (tiles : List Tile) : Tile :=
  tiles.foldl Tile.absorb { name := op.compositeName (tiles.map (·.name)) }

def merge (op : Operator) (tiles : List Tile) (joints : List Joint) : Tile :=
  joints.foldl Tile.join (op.absorbAll tiles)

end Operator

/-- Add labels in order, up to the first that cannot be read. Those before it stay added. -/
def BoundTracker.addAll : List String → BoundTracker → Attempt BoundTracker Unit
  | [], tracker => (.ok (), tracker)
  | label :: labels, tracker =>
    match tracker.add label with
    | .ok tracker => addAll labels tracker
    | .error fault => (.error (.label fault), tracker)

/-- Merge tiles, given in their order in the text. The joints are planned before any label is
added. -/
def Operator.apply (op : Operator) (tiles : List Tile) (tracker : BoundTracker) :
    Attempt BoundTracker Tile :=
  match op.joints? tiles with
  | none => (.error (.underflow op tiles.length), tracker)
  | some (.error detail) => (.error (.mismatch op detail), tracker)
  | some (.ok joints) =>
    (tracker.addAll (tiles.filterMap (·.parameterBounds))).andThen fun () tracker =>
      (.ok (op.merge tiles joints), tracker)

end Tilework
