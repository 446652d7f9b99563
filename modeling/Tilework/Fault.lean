import Tilework.Bound.Label
import Tilework.Operator.Joint
import Tilework.Source.Basic
import Tilework.Tile.Shape

/-!
# Faults of compositions

A fault ends a run. What a run recovers from is a warning instead.
-/

namespace Tilework

inductive ComposeFault where
  /-- The boundaries of the tiles do not fit the operator. -/
  | mismatch (op : Operator) (detail : Mismatch)
  /-- An operator was given another number of tiles than it takes. -/
  | underflow (op : Operator) (available : Nat)
  /-- The expression produced no tile. -/
  | empty
  | source (fault : SourceFault)
  | malformed (name : String) (defect : ShapeDefect)
  | label (fault : LabelFault)
deriving DecidableEq, Repr

def ComposeFault.message (wording : DocumentWording) : ComposeFault → String
  | mismatch op detail =>
    "connector " ++ op.connector ++ " (" ++ op.symbol ++ ") cannot connect: " ++ detail.message
  | underflow op available =>
    "operator `" ++ op.symbol ++ "` needs " ++ toString op.arity ++
      " operand tiles but only " ++ toString available ++ " available"
  | empty => "composition produced no tile"
  | source fault => fault.message wording
  | malformed name defect => "tile `" ++ name ++ "` is malformed: " ++ defect.message
  | label fault => "invalid parameter bound: " ++ fault.message

/-- The result of a step that may fail, with the state it leaves in either case. -/
abbrev Attempt (σ α : Type) := Except ComposeFault α × σ

namespace Attempt

variable {σ α β : Type}

/-- Go on after success. A fault ends the attempt in the state in which it arose. -/
def andThen (attempt : Attempt σ α) (next : α → σ → Attempt σ β) : Attempt σ β :=
  match attempt with
  | (.ok value, state) => next value state
  | (.error fault, state) => (.error fault, state)

@[simp] theorem andThen_ok (value : α) (state : σ) (next : α → σ → Attempt σ β) :
    andThen (.ok value, state) next = next value state := rfl

@[simp] theorem andThen_error (fault : ComposeFault) (state : σ) (next : α → σ → Attempt σ β) :
    andThen (.error fault, state) next = (.error fault, state) := rfl

end Attempt

end Tilework
