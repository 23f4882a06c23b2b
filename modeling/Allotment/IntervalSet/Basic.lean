import Allotment.Range

namespace Allotment

/-!
# Interval sets

A set of values is held as the list of its member intervals in the order of their lower cuts,
together with the order in which they are read.  The operations keep the members non-empty and
pairwise disconnected, so the list is the shortest one for the values that it covers.

* `IntervalSet.floor?`, `before?`, `ceiling?`, `higher?` — the member next to a cut;
* `IntervalSet.insert`, `IntervalSet.erase` — add and take away the values of an interval;
* `IntervalSet.contains`, `encloses`, `intersects`, `span?` — queries, answered from at most two
  members each.
-/

universe u

/-- Member intervals in the order of their lower cuts, and the order that they are read in. -/
structure IntervalSet (α : Type u) where
  cmp : α → α → Ordering
  members : List (Interval α)

namespace IntervalSet

variable {α : Type u}

/-- The set without members. -/
def empty (cmp : α → α → Ordering) : IntervalSet α :=
  ⟨cmp, []⟩

/-! ### Members next to a cut -/

/-- The member with the greatest lower cut at or before `c`. -/
def floor? (s : IntervalSet α) (c : Cut α) : Option (Interval α) :=
  (s.members.filter fun m => Cut.le s.cmp m.lower c).getLast?

/-- The member with the greatest lower cut before `c`. -/
def before? (s : IntervalSet α) (c : Cut α) : Option (Interval α) :=
  (s.members.filter fun m => Cut.lt s.cmp m.lower c).getLast?

/-- The member with the least lower cut at or after `c`. -/
def ceiling? (s : IntervalSet α) (c : Cut α) : Option (Interval α) :=
  s.members.find? fun m => Cut.le s.cmp c m.lower

/-- The member with the least lower cut after `c`. -/
def higher? (s : IntervalSet α) (c : Cut α) : Option (Interval α) :=
  s.members.find? fun m => Cut.lt s.cmp c m.lower

/-! ### Storing and dropping members -/

/-- Puts an interval at its place in a list of members; it takes the place of a member with the same
    lower cut. -/
def put (cmp : α → α → Ordering) (r : Interval α) : List (Interval α) → List (Interval α)
  | [] => [r]
  | m :: ms =>
    match Cut.compare cmp r.lower m.lower with
    | .lt => r :: m :: ms
    | .eq => r :: ms
    | .gt => m :: put cmp r ms

/-- The set whose members are the given intervals, each at its place. -/
def ofMembers (cmp : α → α → Ordering) (rs : List (Interval α)) : IntervalSet α :=
  ⟨cmp, rs.foldl (fun ms r => put cmp r ms) []⟩

/-- Stores an interval under its lower cut.  An empty interval is not held: the member with its
    lower cut goes. -/
def store (s : IntervalSet α) (r : Interval α) : IntervalSet α :=
  if r.isEmpty s.cmp then
    { s with members := s.members.filter fun m => !Cut.same s.cmp m.lower r.lower }
  else { s with members := put s.cmp r s.members }

/-- Drops the members whose lower cut is at or after `lower` and before `upper`. -/
def dropBetween (s : IntervalSet α) (lower upper : Cut α) : IntervalSet α :=
  let starts (m : Interval α) : Bool := Cut.le s.cmp lower m.lower && Cut.lt s.cmp m.lower upper
  { s with members := s.members.filter fun m => !starts m }

/-! ### Inserting and erasing -/

/-- The interval `r` together with the member before it, when that member reaches `r`. -/
def extendLeft (s : IntervalSet α) (r : Interval α) : Interval α :=
  match s.before? r.lower with
  | none => r
  | some m =>
    if Cut.le s.cmp r.lower m.upper then
      ⟨m.lower, if Cut.le s.cmp r.upper m.upper then m.upper else r.upper⟩
    else r

/-- The interval `r`, up to the end of the last member that starts within it or at its end. -/
def extendRight (s : IntervalSet α) (r : Interval α) : Interval α :=
  match s.floor? r.upper with
  | none => r
  | some m => if Cut.le s.cmp r.upper m.upper then ⟨r.lower, m.upper⟩ else r

/-- Adds the values of an interval: it grows by the members that it is connected with, and absorbs
    those that start inside it. -/
def insert (s : IntervalSet α) (r : Interval α) : IntervalSet α :=
  let grown := s.extendRight (s.extendLeft r)
  (s.dropBetween grown.lower grown.upper).store grown

/-- Stores the part of a member that lies past the end of `r`, if `r` ends within the member. -/
def keepAfter (s : IntervalSet α) (r m : Interval α) : IntervalSet α :=
  if r.upper.isBounded && Cut.le s.cmp r.upper m.upper then s.store ⟨r.upper, m.upper⟩ else s

/-- Cuts the member that starts before `r` and reaches it down to what lies on either side of
    `r`. -/
def trimBefore (s : IntervalSet α) (r : Interval α) : IntervalSet α :=
  match s.before? r.lower with
  | none => s
  | some m =>
    if Cut.le s.cmp r.lower m.upper then (s.keepAfter r m).store ⟨m.lower, r.lower⟩ else s

/-- Keeps the part past the end of `r` of the last member that starts at or before that end. -/
def trimAfter (s : IntervalSet α) (r : Interval α) : IntervalSet α :=
  match s.floor? r.upper with
  | none => s
  | some m => s.keepAfter r m

/-- Takes the values of an interval away, splitting members where needed. -/
def erase (s : IntervalSet α) (r : Interval α) : IntervalSet α :=
  ((s.trimBefore r).trimAfter r).dropBetween r.lower r.upper

/-! ### Queries -/

/-- The member that contains a value. -/
def memberOf? (s : IntervalSet α) (v : α) : Option (Interval α) :=
  (s.floor? (.below v)).filter fun m => m.contains s.cmp v

/-- Whether some member contains a value. -/
def contains (s : IntervalSet α) (v : α) : Bool :=
  (s.memberOf? v).isSome

/-- The least interval around all members. -/
def span? (s : IntervalSet α) : Option (Interval α) :=
  match s.members.head?, s.members.getLast? with
  | some first, some last => some (first.hull s.cmp last)
  | _, _ => none

/-- Whether a single member encloses an interval. -/
def enclosesInterval (s : IntervalSet α) (r : Interval α) : Bool :=
  match s.floor? r.lower with
  | some m => m.encloses s.cmp r
  | none => false

/-- Whether a single member encloses a range; the range must be valid in its own order. -/
def encloses (s : IntervalSet α) (r : Option (Range α)) : Bool :=
  Range.Optional.isValid r && s.enclosesInterval (Range.Optional.cuts r)

/-- Whether the member at or after an interval's start, or the one before it, overlaps the
    interval. -/
def overlapsInterval (s : IntervalSet α) (r : Interval α) : Bool :=
  (s.ceiling? r.lower).any (fun m => m.overlaps s.cmp r) ||
    (s.before? r.lower).any fun m => m.overlaps s.cmp r

/-- Whether some value of a range is in the set; the range must be valid and non-empty in its own
    order. -/
def intersects (s : IntervalSet α) (r : Option (Range α)) : Bool :=
  Range.Optional.isValid r && !Range.Optional.isEmpty r &&
    s.overlapsInterval (Range.Optional.cuts r)

end IntervalSet

end Allotment
