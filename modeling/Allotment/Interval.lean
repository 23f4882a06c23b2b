import Allotment.Cut
import Allotment.Display

namespace Allotment

/-!
# Intervals

An interval is a pair of cuts; it holds the values between them.  Nothing keeps the lower cut below
the upper one: an interval whose cuts meet is empty, and one whose ends are in the wrong order is
not valid.  Every operation takes the order in which the interval is read.

* `Interval.isValid`, `Interval.isEmpty`, `Interval.contains` — the queries of one interval;
* `Interval.isConnected`, `Interval.encloses`, `Interval.overlaps`, `Interval.hasBoundsOf` — of two;
* `Interval.hull`, `Interval.meet?` — the least interval around two, and their common part;
* `Interval.text` — interval notation.
-/

universe u

/-- The stretch of values between two cuts. -/
structure Interval (α : Type u) where
  lower : Cut α
  upper : Cut α
deriving DecidableEq

namespace Interval

variable {α : Type u}

/-- The interval of all values. -/
def all : Interval α :=
  ⟨.bottom, .top⟩

/-- The interval that holds the values from `a` to `b`, both included. -/
def closed (a b : α) : Interval α :=
  ⟨.below a, .above b⟩

/-- The interval that holds the values from `a` up to, but not including, `b`. -/
def closedOpen (a b : α) : Interval α :=
  ⟨.below a, .below b⟩

/-- The interval that holds one value. -/
def singleton (v : α) : Interval α :=
  closed v v

variable (cmp : α → α → Ordering)

/-- An interval is valid when it has a place to start and a place to end, and its lower endpoint
    does not exceed its upper one. -/
def isValid (r : Interval α) : Bool :=
  !r.lower.isTop && !r.upper.isBottom &&
    match r.lower.endpoint?, r.upper.endpoint? with
    | some a, some b => (cmp a b).isLE
    | _, _ => true

/-- An interval is empty when its lower cut is not before its upper cut. -/
def isEmpty (r : Interval α) : Bool :=
  (Cut.compare cmp r.lower r.upper).isGE

/-- Whether a value lies between the cuts of an interval. -/
def contains (r : Interval α) (v : α) : Bool :=
  Cut.precedes cmp r.lower v && !Cut.precedes cmp r.upper v

/-- Two intervals are connected when they overlap or abut. -/
def isConnected (r s : Interval α) : Bool :=
  Cut.le cmp r.lower s.upper && Cut.le cmp s.lower r.upper

/-- Whether the cuts of `s` lie within those of `r`. -/
def encloses (r s : Interval α) : Bool :=
  Cut.le cmp r.lower s.lower && Cut.le cmp s.upper r.upper

/-- Whether two intervals have their cuts at the same points. -/
def hasBoundsOf (r s : Interval α) : Bool :=
  Cut.same cmp r.lower s.lower && Cut.same cmp r.upper s.upper

/-- The least interval that encloses both. -/
def hull (r s : Interval α) : Interval α :=
  ⟨Cut.min cmp r.lower s.lower, Cut.max cmp r.upper s.upper⟩

/-- The greatest interval that both enclose, when they are connected.  It is empty when they only
    abut. -/
def meet? (r s : Interval α) : Option (Interval α) :=
  if r.isConnected cmp s then
    some ⟨Cut.max cmp r.lower s.lower, Cut.min cmp r.upper s.upper⟩
  else none

/-- Whether two intervals share a stretch between two different cuts. -/
def overlaps (r s : Interval α) : Bool :=
  match r.meet? cmp s with
  | some m => !m.isEmpty cmp
  | none => false

/-- The lower half of an interval's text. -/
def lowerText [Display α] : Cut α → String
  | .bottom => "(-∞"
  | .below v => "[" ++ display v
  | .above v => "(" ++ display v
  | .top => ""

/-- The upper half of an interval's text. -/
def upperText [Display α] : Cut α → String
  | .bottom => ""
  | .below v => display v ++ ")"
  | .above v => display v ++ "]"
  | .top => "+∞)"

/-- Interval notation: a square bracket beside an end that belongs to the interval, a round one
    beside an end that does not. -/
def text [Display α] (r : Interval α) : String :=
  lowerText r.lower ++ "‥" ++ upperText r.upper

end Interval

end Allotment
