namespace Allotment

/-!
# Cuts

A cut is a point between the values of an ordered type.  A closed lower end `v` is the cut just
below `v` and an open one the cut just above it; for upper ends it is the other way round.  So one
order on cuts serves both ends of an interval.

* `Cut.compare` — the order of the cuts that an order of the values induces;
* `Cut.precedes` — whether a cut lies below a value;
* `Cut.min` / `Cut.max` — the lesser and the greater of two cuts.
-/

universe u

/-- A point between values: below all of them, just below or just above one, or above all. -/
inductive Cut (α : Type u) where
  | bottom
  | below (v : α)
  | above (v : α)
  | top
deriving DecidableEq

namespace Cut

variable {α : Type u}

/-- The value beside a cut. -/
def endpoint? : Cut α → Option α
  | .bottom => none
  | .below v => some v
  | .above v => some v
  | .top => none

/-- Whether a cut stands beside a value. -/
def isBounded (c : Cut α) : Bool :=
  c.endpoint?.isSome

/-- Whether a cut is the one below all values. -/
def isBottom : Cut α → Bool
  | .bottom => true
  | _ => false

/-- Whether a cut is the one above all values. -/
def isTop : Cut α → Bool
  | .top => true
  | _ => false

/-- The lower end `v` as a cut. -/
def lowerEnd (v : α) (closed : Bool) : Cut α :=
  if closed then .below v else .above v

/-- The upper end `v` as a cut. -/
def upperEnd (v : α) (closed : Bool) : Cut α :=
  if closed then .above v else .below v

variable (cmp : α → α → Ordering)

/-- Cuts compare by their values; beside one value, the cut below it comes first. -/
def compare : Cut α → Cut α → Ordering
  | .bottom, .bottom => .eq
  | .bottom, _ => .lt
  | _, .bottom => .gt
  | .top, .top => .eq
  | .top, _ => .gt
  | _, .top => .lt
  | .below a, .below b => cmp a b
  | .below a, .above b => (cmp a b).then .lt
  | .above a, .below b => (cmp a b).then .gt
  | .above a, .above b => cmp a b

/-- Whether one cut is at or before another. -/
def le (a b : Cut α) : Bool :=
  (compare cmp a b).isLE

/-- Whether one cut is before another. -/
def lt (a b : Cut α) : Bool :=
  (compare cmp a b).isLT

/-- Whether two cuts are at the same point. -/
def same (a b : Cut α) : Bool :=
  (compare cmp a b).isEq

/-- Whether a cut lies below the value `v`. -/
def precedes : Cut α → α → Bool
  | .bottom, _ => true
  | .below a, v => (cmp a v).isLE
  | .above a, v => (cmp a v).isLT
  | .top, _ => false

/-- The lesser of two cuts; the first one when they are at the same point. -/
def min (a b : Cut α) : Cut α :=
  if (compare cmp a b).isLE then a else b

/-- The greater of two cuts; the first one when they are at the same point. -/
def max (a b : Cut α) : Cut α :=
  if (compare cmp a b).isGE then a else b

end Cut

end Allotment
