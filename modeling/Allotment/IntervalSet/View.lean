import Allotment.IntervalSet.Gaps

namespace Allotment

/-!
# Views

A view is an interval set seen from one of its two sides: from the inside it is the set, from the
outside it is the set of the values that the set does not cover.  A view holds no intervals of its
own; what it answers about the outside, it answers from the members.

* `View.ranges`, `View.count` — the intervals of a view and their number;
* `View.contains`, `encloses`, `intersects`, `span?`, `intervalOf?` — queries;
* `View.equal`, `View.enclosesAll` — comparison of two views;
* `View.copy` — a set of its own with the intervals of the view.
-/

universe u

/-- The two sides from which a set can be seen. -/
inductive Side where
  | inside
  | outside
deriving DecidableEq

/-- The other side. -/
def Side.flip : Side → Side
  | .inside => .outside
  | .outside => .inside

/-- An interval set, seen from one side. -/
structure View (α : Type u) where
  base : IntervalSet α
  side : Side

namespace View

variable {α : Type u}

/-- The order in which a view is read. -/
def cmp (w : View α) : α → α → Ordering :=
  w.base.cmp

/-- The same set, seen from the other side. -/
def complement (w : View α) : View α :=
  ⟨w.base, w.side.flip⟩

/-- The intervals of a view, in increasing order. -/
def intervals (w : View α) : List (Interval α) :=
  match w.side with
  | .inside => w.base.members
  | .outside => w.base.gaps

/-- The intervals of a view, read in its order. -/
def ranges (w : View α) : List (Range α) :=
  w.intervals.map fun i => ⟨i, w.cmp⟩

/-- The number of intervals of a view. -/
def count (w : View α) : Nat :=
  match w.side with
  | .inside => w.base.members.length
  | .outside => w.base.gapCount

/-- The interval of a view that contains a value. -/
def intervalOf? (w : View α) (v : α) : Option (Interval α) :=
  match w.side with
  | .inside => w.base.memberOf? v
  | .outside => w.base.gapOf? v

/-- Whether a view contains a value. -/
def contains (w : View α) (v : α) : Bool :=
  match w.side with
  | .inside => w.base.contains v
  | .outside => !w.base.contains v

/-- Whether a view covers nothing. -/
def isEmpty (w : View α) : Bool :=
  match w.side with
  | .inside => w.base.members.isEmpty
  | .outside => w.base.isFull

/-- The least interval around all intervals of a view. -/
def span? (w : View α) : Option (Interval α) :=
  match w.side with
  | .inside => w.base.span?
  | .outside => w.base.gapSpan?

/-- Whether a single interval of a view encloses a range. -/
def encloses (w : View α) (r : Option (Range α)) : Bool :=
  match w.side with
  | .inside => w.base.encloses r
  | .outside => w.base.gapEncloses r

/-- Whether some value of a range is in a view. -/
def intersects (w : View α) (r : Option (Range α)) : Bool :=
  match w.side with
  | .inside => w.base.intersects r
  | .outside => w.base.gapIntersects r

/-- Whether each interval of another view is enclosed; an absent view has none. -/
def enclosesAll (w : View α) (other : Option (View α)) : Bool :=
  match other with
  | none => true
  | some o => o.ranges.all fun r => w.encloses (some r)

/-- Whether two lists of intervals have the same bounds one by one. -/
def sameIntervals (cmp : α → α → Ordering) : List (Interval α) → List (Interval α) → Bool
  | [], [] => true
  | r :: rs, t :: ts => r.hasBoundsOf cmp t && sameIntervals cmp rs ts
  | _, _ => false

/-- Whether two views have the same intervals, compared in the order of the first; an absent view
    equals none. -/
def equal (w : View α) (other : Option (View α)) : Bool :=
  match other with
  | none => false
  | some o => sameIntervals w.cmp w.intervals o.intervals

/-- A set of its own with the intervals of a view. -/
def copy (w : View α) : IntervalSet α :=
  match w.side with
  | .inside => w.base
  | .outside => w.base.complement

/-- The texts of the intervals of a view one after another; a view without intervals shows as a pair
    of braces. -/
def text [Display α] (w : View α) : String :=
  match w.intervals with
  | [] => "\x7b\x7d"
  | is => String.join (is.map Interval.text)

end View

end Allotment
