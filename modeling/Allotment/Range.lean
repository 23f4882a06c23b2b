import Allotment.Interval

namespace Allotment

/-!
# Ranges

A range is an interval together with the order in which it is read.  Two ranges may carry different
orders; an operation on two of them compares in the order of the first.

A range may be absent.  `Range.Optional` has the queries of an `Option (Range α)`: an absent range
is not valid and holds nothing.
-/

universe u

/-- An interval with the order in which it is read. -/
structure Range (α : Type u) extends Interval α where
  cmp : α → α → Ordering

namespace Range

variable {α : Type u}

/-- Whether a range is valid in its own order. -/
def isValid (r : Range α) : Bool :=
  r.toInterval.isValid r.cmp

/-- Whether a range is empty in its own order. -/
def isEmpty (r : Range α) : Bool :=
  r.toInterval.isEmpty r.cmp

/-- Whether a range contains a value. -/
def contains (r : Range α) (v : α) : Bool :=
  r.toInterval.contains r.cmp v

/-- Whether every bound of `s` lies within the bounds of `r`. -/
def encloses (r s : Range α) : Bool :=
  r.toInterval.encloses r.cmp s.toInterval

/-- Whether two ranges share a stretch of values. -/
def overlaps (r s : Range α) : Bool :=
  r.toInterval.overlaps r.cmp s.toInterval

/-- Ranges in the order of their lower cuts. -/
def compareLower (r s : Range α) : Ordering :=
  Cut.compare r.cmp r.lower s.lower

/-- The text of a range. -/
def text [Display α] (r : Range α) : String :=
  r.toInterval.text

namespace Optional

/-- The cuts of a range that may be absent. -/
def cuts : Option (Range α) → Interval α
  | some r => r.toInterval
  | none => ⟨.bottom, .bottom⟩

/-- Whether a range is present and valid. -/
def isValid : Option (Range α) → Bool
  | some r => r.isValid
  | none => false

/-- Whether a range is absent or empty. -/
def isEmpty : Option (Range α) → Bool
  | some r => r.isEmpty
  | none => true

/-- The text of a range that may be absent. -/
def text [Display α] : Option (Range α) → String
  | some r => r.text
  | none => "<nil>"

end Optional

end Range

end Allotment
