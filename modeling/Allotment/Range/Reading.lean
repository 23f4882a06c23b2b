import Allotment.Range

namespace Allotment

/-!
# Readings

A reading is an interval with the order in which it is to be read, if it has one.  With an order it
is a range; without one it holds no value and has no text, but its cuts are still there: what
compares two readings goes by the cuts of both, in the order of the first.  Cuts beside values are
never compared without an order.
-/

universe u

/-- An interval and the order in which it is to be read, if there is one. -/
structure Reading (α : Type u) extends Interval α where
  cmp? : Option (α → α → Ordering)

namespace Reading

variable {α : Type u}

/-- The reading of nothing: no order, and both cuts below all values. -/
def absent : Reading α :=
  ⟨⟨.bottom, .bottom⟩, none⟩

/-- A range as a reading. -/
def ofRange (r : Range α) : Reading α :=
  ⟨r.toInterval, some r.cmp⟩

/-- The range that a reading stands for, when it has an order. -/
def range? (r : Reading α) : Option (Range α) :=
  r.cmp?.map fun cmp => ⟨r.toInterval, cmp⟩

/-- The order in which cuts are compared; without one all values count as the same. -/
def order (r : Reading α) : α → α → Ordering :=
  r.cmp?.getD fun _ _ => .eq

/-- Whether a reading has an order and is valid in it. -/
def isValid (r : Reading α) : Bool :=
  Range.Optional.isValid r.range?

/-- Whether a reading has no order or is empty in it. -/
def isEmpty (r : Reading α) : Bool :=
  Range.Optional.isEmpty r.range?

/-- Whether a reading has an order and contains a value in it. -/
def contains (r : Reading α) (v : α) : Bool :=
  r.range?.any fun s => s.contains v

/-- Whether two readings overlap or abut. -/
def isConnected (r s : Reading α) : Bool :=
  r.toInterval.isConnected r.order s.toInterval

/-- Whether every bound of `s` lies within the bounds of `r`. -/
def encloses (r s : Reading α) : Bool :=
  r.toInterval.encloses r.order s.toInterval

/-- Whether two readings have the same bounds; all readings without an order are equal. -/
def equal (r s : Reading α) : Bool :=
  match r.cmp?, s.cmp? with
  | some cmp, some _ => r.toInterval.hasBoundsOf cmp s.toInterval
  | none, none => true
  | _, _ => false

/-- Readings in the order of their lower cuts. -/
def compareLower (r s : Reading α) : Ordering :=
  Cut.compare r.order r.lower s.lower

/-- The least reading around two, in the order of the first. -/
def hull (r s : Reading α) : Reading α :=
  ⟨r.toInterval.hull r.order s.toInterval, r.cmp?⟩

/-- The common part of two readings that are connected, in the order of the first. -/
def meet? (r s : Reading α) : Option (Reading α) :=
  (r.toInterval.meet? r.order s.toInterval).map fun i => ⟨i, r.cmp?⟩

/-- The text of a reading. -/
def text [Display α] (r : Reading α) : String :=
  Range.Optional.text r.range?

end Reading

end Allotment
