import Allotment.IntervalSet.View

namespace Allotment

/-!
# Cells and edits

A cell is an interval set that is edited in place.  It counts its changes, so that whoever walks
over its members can notice them, and it may be read-only.

* `Edit` — what can be asked of a cell; `Edit.flip` is the edit that does the same to the outside;
* `Cell.apply` — performs an edit and reports what was refused;
* `Cell.union`, `Cell.difference`, `Cell.meet` — new cells from two views.

An edit with a range that is not valid in its own order is refused; one with an empty range changes
nothing and is not counted.  A bulk edit reads all intervals before it starts, so it may take them
from a view of the cell itself.
-/

universe u

/-- Why an edit or a query of a set was refused. -/
inductive SetError (α : Type u) where
  /-- The set is read-only. -/
  | readOnly
  /-- The range is absent, or its lower endpoint exceeds its upper one. -/
  | invalidRange (r : Option (Range α))
  /-- A set is needed and none was given. -/
  | absentSet
  /-- An order is needed and none was given. -/
  | absentOrder
  /-- The set has no members. -/
  | noMembers
  /-- The set changed while it was being walked over. -/
  | modified

/-- The message of a set error. -/
def SetError.message {α : Type u} [Display α] : SetError α → String
  | .readOnly => "range set is read-only: unsupported operation"
  | .invalidRange r => "invalid range: invalid argument: " ++ Range.Optional.text r
  | .absentSet => "invalid argument: nil range set"
  | .absentOrder => "invalid argument: nil order"
  | .noMembers => "range set is empty"
  | .modified => "range set modified during iteration"

/-- A set with the number of its changes so far, which starts over when it exceeds a 64-bit word. -/
structure Cell (α : Type u) where
  set : IntervalSet α
  version : UInt64
  isReadOnly : Bool

/-- A change asked of a set. -/
inductive Edit (α : Type u) where
  | add (r : Option (Range α))
  | remove (r : Option (Range α))
  | addAll (rs : Option (List (Interval α)))
  | removeAll (rs : Option (List (Interval α)))
  | clear

/-- The edit of a set that does to its inside what `e` does to its outside. -/
def Edit.flip {α : Type u} (cmp : α → α → Ordering) : Edit α → Edit α
  | .add r => .remove r
  | .remove r => .add r
  | .addAll rs => .removeAll rs
  | .removeAll rs => .addAll rs
  | .clear => .add (some ⟨.all, cmp⟩)

namespace Cell

variable {α : Type u}

/-- A cell of its own for a set. -/
def ofSet (s : IntervalSet α) : Cell α :=
  ⟨s, 0, false⟩

/-- A read-only cell for a set. -/
def frozen (s : IntervalSet α) : Cell α :=
  ⟨s, 0, true⟩

/-- A cell seen from one side. -/
def view (c : Cell α) (side : Side) : View α :=
  ⟨c.set, side⟩

/-- Replaces the set and counts the change. -/
def change (c : Cell α) (s : IntervalSet α) : Cell α :=
  { c with set := s, version := c.version + 1 }

/-- Performs a change with one range, which must be valid and non-empty to have an effect. -/
def applyRange (c : Cell α) (f : IntervalSet α → Interval α → IntervalSet α)
    (r : Option (Range α)) : Cell α × List (SetError α) :=
  if c.isReadOnly then (c, [.readOnly])
  else if !Range.Optional.isValid r then (c, [.invalidRange r])
  else if Range.Optional.isEmpty r then (c, [])
  else (c.change (f c.set (Range.Optional.cuts r)), [])

/-- Performs a change with each interval in turn, read in the order of the cell. -/
def applyEach (c : Cell α) (f : IntervalSet α → Interval α → IntervalSet α) :
    List (Interval α) → Cell α × List (SetError α)
  | [] => (c, [])
  | r :: rs =>
    let (c, refused) := c.applyRange f (some ⟨r, c.set.cmp⟩)
    let (c, others) := c.applyEach f rs
    (c, refused ++ others)

/-- Performs a change with the intervals of another set, if there is one. -/
def applyAll (c : Cell α) (f : IntervalSet α → Interval α → IntervalSet α)
    (rs : Option (List (Interval α))) : Cell α × List (SetError α) :=
  match rs with
  | none => (c, [.absentSet])
  | some rs => if c.isReadOnly then (c, [.readOnly]) else c.applyEach f rs

/-- Performs an edit.  The second component says what was refused; nothing refused means success. -/
def apply (c : Cell α) : Edit α → Cell α × List (SetError α)
  | .add r => c.applyRange .insert r
  | .remove r => c.applyRange .erase r
  | .addAll rs => c.applyAll .insert rs
  | .removeAll rs => c.applyAll .erase rs
  | .clear => if c.isReadOnly then (c, [.readOnly]) else (c.change (.empty c.set.cmp), [])

/-- Performs an edit on a cell seen from one side. -/
def applyTo (c : Cell α) (side : Side) (e : Edit α) : Cell α × List (SetError α) :=
  match side with
  | .inside => c.apply e
  | .outside => c.apply (e.flip c.set.cmp)

/-- Performs edits one after another. -/
def applyList (c : Cell α) : List (Edit α) → Cell α × List (SetError α)
  | [] => (c, [])
  | e :: es =>
    let (c, refused) := c.apply e
    let (c, others) := c.applyList es
    (c, refused ++ others)

/-- A new cell with the union of the given ranges; ranges that are not valid are left out and
    reported. -/
def ofRanges (cmp : α → α → Ordering) (rs : List (Option (Range α))) : Cell α × List (SetError α) :=
  (ofSet (.empty cmp)).applyList (rs.map .add)

/-- The values of either view. -/
def union (a b : View α) : Cell α × List (SetError α) :=
  (ofSet a.copy).apply (.addAll (some b.intervals))

/-- The values of the first view that are not in the second. -/
def difference (a b : View α) : Cell α × List (SetError α) :=
  (ofSet a.copy).apply (.removeAll (some b.intervals))

/-- The values of both views. -/
def meet (a b : View α) : Cell α × List (SetError α) :=
  (ofSet a.copy).apply (.removeAll (some b.complement.intervals))

end Cell

end Allotment
