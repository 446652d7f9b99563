import Tilework.Tile.Basic
import Tilework.Token.Basic

/-!
# Joints

An operator joins exits of one tile to entries of others. `Operator.joints?` plans the pairs for
tiles in their order in the text, or says why the boundaries do not fit; it is `none` for a number
of tiles that the operator does not take.
-/

namespace Tilework

/-- An exit and the entry it is joined to, by their ids. -/
structure Joint where
  exit : String
  entry : String
deriving DecidableEq, Repr

/-- Why boundaries do not fit. Tiles are given by their names. -/
inductive Mismatch where
  | sizes (left : String) (exits : Nat) (right : String) (entries : Nat)
  | noExit (tile : String)
  | noEntry (tile : String)
  | rootExits (tile : String) (exits : Nat)
  | branchEntries (tile : String) (entries : Nat)
deriving DecidableEq, Repr

def Mismatch.message : Mismatch → String
  | sizes left exits right entries =>
    "`" ++ left ++ "` has " ++ toString exits ++ " out locations but `" ++ right ++ "` has " ++
      toString entries ++ " in locations"
  | noExit tile => "`" ++ tile ++ "` has no out location"
  | noEntry tile => "`" ++ tile ++ "` has no in location"
  | rootExits tile exits =>
    "`" ++ tile ++ "` needs exactly 2 out locations, has " ++ toString exits
  | branchEntries tile entries =>
    "`" ++ tile ++ "` needs exactly 1 in location, has " ++ toString entries

namespace Tile

def exits (tile : Tile) : List String := tile.boundary .exit

def entries (tile : Tile) : List String := tile.boundary .entry

end Tile

/-- All exits of the left tile to all entries of the right one, in order. -/
def joinAll (left right : Tile) : Except Mismatch (List Joint) :=
  if left.exits.length = right.entries.length then
    .ok (left.exits.zipWith Joint.mk right.entries)
  else .error (.sizes left.name left.exits.length right.name right.entries.length)

/-- The first exit of the left tile to the first entry of the right one. -/
def joinFirst (left right : Tile) : Except Mismatch (List Joint) :=
  match left.exits, right.entries with
  | exit :: _, entry :: _ => .ok [⟨exit, entry⟩]
  | [], _ => .error (.noExit left.name)
  | _ :: _, [] => .error (.noEntry right.name)

def branchEntry (branch : Tile) : Except Mismatch String :=
  match branch.entries with
  | [entry] => .ok entry
  | entries => .error (.branchEntries branch.name entries.length)

/-- The two exits of a root to the entries of its branches, one each. -/
def joinBranches (root first second : Tile) : Except Mismatch (List Joint) :=
  match root.exits with
  | [exit, exit'] => do
    let entry ← branchEntry first
    let entry' ← branchEntry second
    return [⟨exit, entry⟩, ⟨exit', entry'⟩]
  | exits => .error (.rootExits root.name exits.length)

def Operator.joints? : Operator → List Tile → Option (Except Mismatch (List Joint))
  | sizeMatched, [left, right] => some (joinAll left right)
  | singleEdge, [left, right] => some (joinFirst left right)
  | fanOut, [root, first, second] => some (joinBranches root first second)
  | _, _ => none

theorem Operator.joints?_eq_none_iff (op : Operator) (tiles : List Tile) :
    op.joints? tiles = none ↔ tiles.length ≠ op.arity := by
  rcases op with _ | _ | _ <;> rcases tiles with _ | ⟨a, _ | ⟨b, _ | ⟨c, _ | ⟨d, tiles⟩⟩⟩⟩ <;>
    simp [joints?, arity]

end Tilework
