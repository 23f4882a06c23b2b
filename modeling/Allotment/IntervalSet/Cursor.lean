import Allotment.IntervalSet.Cell

namespace Allotment

/-!
# Cursors

A cursor walks over the intervals of a cell, seen from one side, while the cell may be edited.  It
remembers the version that it started from and where it stands; when it needs a further member and
finds another version it stops, so it never mixes the intervals of two states.

* `Cursor.start` — a cursor before the first interval;
* `Cursor.next` — one step;
* `Cursor.current?`, `Cursor.error?` — the interval under the cursor, and why the walk was cut
  short.
-/

universe u

/-- How far a walk has come. -/
inductive Progress where
  /-- There may be more intervals. -/
  | walking
  /-- The interval under the cursor reaches above all values, so it is the last one. -/
  | lastGap
  /-- All intervals have been seen. -/
  | finished
  /-- The cell changed. -/
  | broken
deriving DecidableEq

/-- A walk over the intervals of a cell. -/
structure Cursor (α : Type u) where
  side : Side
  /-- The version of the cell at the start. -/
  version : UInt64
  /-- The lower cut of the member that was passed last. -/
  passed : Option (Cut α)
  /-- The cut up to which the line has been walked. -/
  reached : Cut α
  progress : Progress
  current? : Option (Interval α)

namespace Cursor

variable {α : Type u}

/-- A cursor before the first interval of a cell. -/
def start (c : Cell α) (side : Side) : Cursor α :=
  ⟨side, c.version, none, .bottom, .walking, none⟩

/-- A cursor that has nothing to walk over. -/
def ended : Cursor α :=
  ⟨.inside, 0, none, .bottom, .finished, none⟩

/-- Why a walk was cut short. -/
def error? (k : Cursor α) : Option (SetError α) :=
  if k.progress = .broken then some .modified else none

/-- The members that a cursor has not passed yet. -/
def remaining (k : Cursor α) (s : IntervalSet α) : List (Interval α) :=
  match k.passed with
  | none => s.members
  | some c => s.members.filter fun m => Cut.lt s.cmp c m.lower

/-- The cursor at an interval. -/
def moveTo (k : Cursor α) (i : Interval α) : Cursor α :=
  { k with current? := some i }

/-- The cursor after the last interval. -/
def finish (k : Cursor α) : Cursor α :=
  { k with progress := .finished, current? := none }

/-- The cursor after passing a member. -/
def pass (k : Cursor α) (m : Interval α) : Cursor α :=
  { k with passed := some m.lower, reached := m.upper }

/-- Moves to the next of the given members. -/
def nextMember (k : Cursor α) : List (Interval α) → Cursor α
  | [] => k.finish
  | m :: _ => (k.pass m).moveTo m

/-- Moves to the next gap that is not empty, passing the given members.  Nothing remains beyond the
    gap that ends above all values. -/
def nextGap (cmp : α → α → Ordering) (k : Cursor α) : List (Interval α) → Cursor α
  | [] =>
    let gap : Interval α := ⟨k.reached, .top⟩
    if gap.isEmpty cmp then k.finish else ({ k with progress := .lastGap }).moveTo gap
  | m :: ms =>
    let gap : Interval α := ⟨k.reached, m.lower⟩
    if gap.isEmpty cmp then nextGap cmp (k.pass m) ms else (k.pass m).moveTo gap

/-- Moves to the next interval.  A cursor that has stopped stays where it is, and one at the last
    gap stops without another look at the cell. -/
def next (k : Cursor α) (c : Cell α) : Cursor α :=
  match k.progress with
  | .walking =>
    if c.version ≠ k.version then { k with progress := .broken, current? := none }
    else
      match k.side with
      | .inside => k.nextMember (k.remaining c.set)
      | .outside => k.nextGap c.set.cmp (k.remaining c.set)
  | .lastGap => k.finish
  | .finished => k
  | .broken => k

end Cursor

end Allotment
