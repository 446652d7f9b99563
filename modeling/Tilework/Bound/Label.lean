import Tilework.Bound.Basic
import Tilework.Text.Basic

/-!
# Bound labels

A label such as `0:5|8:inf` lists intervals between bars. Each interval has two sides around its
first colon. A side is a decimal, an infinity, or one of four texts that say there is no bound;
an interval with such a side is free. The leftmost fault of a label is reported.
-/

namespace Tilework

inductive LabelFault where
  | missingSeparator (part : String)
  | badSide (side : String)
deriving DecidableEq, Repr

def LabelFault.message : LabelFault → String
  | missingSeparator part => "bound `" ++ part ++ "` is not of the form low:high"
  | badSide side => "bound side `" ++ side ++ "` is neither a number nor inf/nan"

namespace Bound

def unbounded : List (List Char) := [[], "-".toList, "nan".toList, "NaN".toList]

def finite? (side : List Char) : Option Binary64 := (Decimal.readSigned? side).filter (·.isFinite)

/-- `none` is a side without a bound. The infinities are the outermost finite values. -/
def readSide (text : List Char) : Except LabelFault (Option Binary64) :=
  let side := Text.trim text
  if side ∈ unbounded then .ok none
  else if side = "inf".toList ∨ side = "+inf".toList then .ok (some .greatest)
  else if side = "-inf".toList then .ok (some .least)
  else match finite? side with
    | some v => .ok (some v)
    | none => .error (.badSide (String.ofList side))

def ofSides : Option Binary64 → Option Binary64 → Bound
  | some low, some high => interval low high
  | _, _ => free

def readInterval (text : List Char) : Except LabelFault Bound :=
  match Text.cutAt? ':' text with
  | none => .error (.missingSeparator (String.ofList (Text.trim text)))
  | some (low, high) => do
    let low ← readSide low
    let high ← readSide high
    return ofSides low high

def readLabel (label : String) : Except LabelFault (List Bound) :=
  (Text.splitOn '|' label.toList).mapM readInterval

end Bound

end Tilework
