import Tilework.Operator.Merge
import Tilework.Token.Basic

/-!
# Frames

A frame holds what stands in one group so far: its tiles and its operators, the latest of each
first. Operators wait until the group is drained; then the latest operator is applied first, to the
latest tiles. Frames of open groups form a stack above the frame of the whole expression.
-/

namespace Tilework

structure Frame where
  level : UInt32 := 0
  operands : List Tile := []
  operators : List Operator := []
  /-- Where the group was opened. -/
  openedAt : Span := .point 0
deriving Repr, Inhabited

namespace Frame

def pushTile (frame : Frame) (tile : Tile) : Frame :=
  { frame with operands := tile :: frame.operands }

def pushOperator (frame : Frame) (op : Operator) : Frame :=
  { frame with operators := op :: frame.operators }

/-- Apply operators, the first one to the latest tiles. After a fault the operator is gone, and so
are the tiles it was applied to. -/
def applyAll : List Operator → Frame → BoundTracker → Attempt (Frame × BoundTracker) Unit
  | [], frame, tracker => (.ok (), { frame with operators := [] }, tracker)
  | op :: ops, frame, tracker =>
    if frame.operands.length < op.arity then
      (.error (.underflow op frame.operands.length), { frame with operators := ops }, tracker)
    else
      let rest := { frame with operators := ops, operands := frame.operands.drop op.arity }
      match op.apply (frame.operands.take op.arity).reverse tracker with
      | (.ok tile, tracker) => applyAll ops (rest.pushTile tile) tracker
      | (.error fault, tracker) => (.error fault, rest, tracker)

def drain (frame : Frame) (tracker : BoundTracker) : Attempt (Frame × BoundTracker) Unit :=
  applyAll frame.operators frame tracker

end Frame

/-- The frames of the open groups, the innermost first, above that of the whole expression. -/
structure FrameStack where
  head : Frame := {}
  below : List Frame := []
deriving Repr, Inhabited

namespace FrameStack

def depth (stack : FrameStack) : Nat := stack.below.length + 1

def mapHead (stack : FrameStack) (f : Frame → Frame) : FrameStack :=
  { stack with head := f stack.head }

def enter (stack : FrameStack) (span : Span) : FrameStack where
  head := { level := stack.head.level + 1, openedAt := span }
  below := stack.head :: stack.below

/-- Take away the innermost frame. That of the whole expression stays. -/
def leave? (stack : FrameStack) : Option (Frame × FrameStack) :=
  match stack.below with
  | [] => none
  | frame :: below => some (stack.head, ⟨frame, below⟩)

end FrameStack

end Tilework
