import Tilework.Number.Decimal

/-!
# Intervals for the free parameter

A bound is free, or an interval with two sides. Intersecting takes the greater of the low sides and
the lesser of the high sides; an interval whose low side lies above its high side is disjoint and
is kept, since it says that a composition has no feasible parameter.
-/

namespace Tilework

inductive Bound where
  | free
  | interval (low high : Binary64)
deriving DecidableEq, Repr, Inhabited

namespace Bound

def isFree : Bound → Bool
  | free => true
  | interval _ _ => false

def isDisjoint : Bound → Bool
  | free => false
  | interval low high => high < low

def low : Bound → Binary64
  | free => .nan
  | interval low _ => low

def high : Bound → Binary64
  | free => .nan
  | interval _ high => high

/-- The parameters allowed by both bounds. -/
def inter : Bound → Bound → Bound
  | free, b => b
  | a, free => a
  | interval l h, interval l' h' => interval (l.sup l') (h.inf h')

@[simp] theorem free_inter (b : Bound) : free.inter b = b := by cases b <;> rfl

@[simp] theorem inter_free (b : Bound) : b.inter free = b := by cases b <;> rfl

@[simp] theorem interval_inter_interval (l h l' h' : Binary64) :
    (interval l h).inter (interval l' h') = interval (l.sup l') (h.inf h') := rfl

/-- The greatest and the least finite value stand for unbounded sides. -/
def sideText (side : Binary64) : String :=
  if side = .greatest then "inf" else if side = .least then "-inf" else side.plain

def text : Bound → String
  | free => "[nan]"
  | interval l h =>
    "[" ++ sideText l ++ ", " ++ sideText h ++ "]" ++ if h < l then " disjoint" else ""

end Bound

end Tilework
