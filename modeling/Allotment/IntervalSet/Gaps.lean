import Allotment.IntervalSet.Basic

namespace Allotment.IntervalSet

/-!
# The gaps of an interval set

The values outside a set form the gaps between its members.  `gaps` lists them; the other
definitions answer the questions about the outside directly from the members, without listing the
gaps.

* `gaps` — the non-empty intervals before, between and after the members;
* `gapAt`, `gapOf?` — the gap next to a cut, and the gap that contains a value;
* `gapCount`, `gapSpan?`, `isFull`, `gapEncloses`, `gapIntersects` — queries of the outside;
* `complement` — the outside as a set of its own.
-/

universe u

variable {α : Type u}

/-- An interval as a list: nothing when it is empty. -/
def keepNonempty (cmp : α → α → Ordering) (r : Interval α) : List (Interval α) :=
  if r.isEmpty cmp then [] else [r]

/-- The gaps around a list of members, from the cut `lower` on. -/
def gapsFrom (cmp : α → α → Ordering) : Cut α → List (Interval α) → List (Interval α)
  | lower, [] => keepNonempty cmp ⟨lower, .top⟩
  | lower, m :: ms => keepNonempty cmp ⟨lower, m.lower⟩ ++ gapsFrom cmp m.upper ms

/-- The intervals of the values outside a set. -/
def gaps (s : IntervalSet α) : List (Interval α) :=
  gapsFrom s.cmp .bottom s.members

/-- The outside of a set, as a set of its own. -/
def complement (s : IntervalSet α) : IntervalSet α :=
  ofMembers s.cmp s.gaps

/-- The gap after the last member that starts at or before the cut `c`, or the leading gap when no
    member does. -/
def gapAt (s : IntervalSet α) (c : Cut α) : Interval α :=
  match s.floor? c with
  | some m => ⟨m.upper, ((s.higher? m.lower).map Interval.lower).getD .top⟩
  | none => ⟨.bottom, (s.members.head?.map Interval.lower).getD .top⟩

/-- The gap that contains a value. -/
def gapOf? (s : IntervalSet α) (v : α) : Option (Interval α) :=
  if s.contains v then none else some (s.gapAt (.below v))

/-- Whether the set leaves no gap. -/
def isFull (s : IntervalSet α) : Bool :=
  s.enclosesInterval .all

/-- The least interval around all gaps. -/
def gapSpan? (s : IntervalSet α) : Option (Interval α) :=
  if s.isFull then none
  else
    match s.members.head?, s.members.getLast? with
    | some first, some last =>
      some ⟨if first.lower.isBottom then first.upper else .bottom,
        if last.upper.isTop then last.lower else .top⟩
    | _, _ => some .all

/-- Whether a single gap encloses a range; the range must be valid in its own order. -/
def gapEncloses (s : IntervalSet α) (r : Option (Range α)) : Bool :=
  Range.Optional.isValid r &&
    let gap := s.gapAt (Range.Optional.cuts r).lower
    !gap.isEmpty s.cmp && gap.encloses s.cmp (Range.Optional.cuts r)

/-- Whether some value of a range is outside the set; the range must be valid and non-empty in its
    own order. -/
def gapIntersects (s : IntervalSet α) (r : Option (Range α)) : Bool :=
  Range.Optional.isValid r && !Range.Optional.isEmpty r && !s.encloses r

/-- The number of gaps: one between each two members, and one at either end that the members leave
    open. -/
def gapCount (s : IntervalSet α) : Nat :=
  match s.members.head?, s.members.getLast? with
  | some first, some last =>
    s.members.length - 1 + (if first.lower.isBottom then 0 else 1) +
      (if last.upper.isTop then 0 else 1)
  | _, _ => 1

end Allotment.IntervalSet
