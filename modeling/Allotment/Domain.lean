import Allotment.Range

namespace Allotment

/-!
# Discrete domains

In a discrete domain every value but the last has a successor.  An interval over such a domain can
be written half open, as `[a‥b)`: `Interval.canonical` moves every cut above a value to the cut
below its successor, so that intervals of adjacent values abut.

* `Domain` — a successor function, and how long to follow it;
* `Domain.int64` — the 64-bit integers in increasing order;
* `Interval.canonical` — the half-open form of an interval.
-/

universe u

/-- A successor function, and how long to follow it. -/
structure Domain (α : Type u) where
  /-- The value after a value, if there is one. -/
  next : α → Option α
  /-- How many values a climb from value to value tries before it is given up.  A domain without a
      last value has climbs that do not end. -/
  patience : Nat

namespace Domain

/-- The successor of a 64-bit integer; the greatest one has none. -/
def nextInt64 (v : Int64) : Option Int64 :=
  if v = Int64.maxValue then none else some (v + 1)

/-- The 64-bit integers, each followed by the next greater one. -/
def int64 : Domain Int64 :=
  ⟨nextInt64, UInt64.size⟩

end Domain

namespace Cut

variable {α : Type u}

/-- A cut above a value, moved below the value's successor. -/
def canonical (d : Domain α) : Cut α → Cut α
  | .above v =>
    match d.next v with
    | some w => .below w
    | none => .top
  | c => c

end Cut

namespace Interval

variable {α : Type u}

/-- The half-open form of an interval. -/
def canonical (d : Domain α) (r : Interval α) : Interval α :=
  ⟨r.lower.canonical d, r.upper.canonical d⟩

end Interval

namespace Range

variable {α : Type u}

/-- The half-open form of a range. -/
def canonical (d : Domain α) (r : Range α) : Range α :=
  ⟨r.toInterval.canonical d, r.cmp⟩

end Range

end Allotment
