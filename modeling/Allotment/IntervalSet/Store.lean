import Allotment.IntervalSet.Cursor

namespace Allotment

/-!
# Stores

A store holds cells that several names may share.  A handle names one cell together with the side
from which it is seen; the handle of the other side names the same cell, so an edit through either
shows through both.

* `Store.edit`, `Store.walk`, `Store.step` — edits and walks through a handle;
* `Store.Request`, `Store.perform`, `Store.run` — what can be asked of a store, and what it does.
-/

universe u

/-- A cell of a store, seen from one side. -/
structure Handle where
  cell : Nat
  side : Side
deriving DecidableEq

/-- The handle of the same cell seen from the other side. -/
def Handle.complement (h : Handle) : Handle :=
  { h with side := h.side.flip }

/-- The cells made so far, the oldest first. -/
structure Store (α : Type u) where
  cells : List (Cell α)

namespace Store

variable {α : Type u}

/-- The store without cells. -/
def empty : Store α :=
  ⟨[]⟩

/-- Puts a new cell into a store and gives its handle. -/
def push (st : Store α) (c : Cell α) : Store α × Handle :=
  (⟨st.cells ++ [c]⟩, ⟨st.cells.length, .inside⟩)

/-- The cell that a handle names. -/
def cell? (st : Store α) (h : Handle) : Option (Cell α) :=
  st.cells[h.cell]?

/-- The view that a handle names. -/
def view? (st : Store α) (h : Handle) : Option (View α) :=
  (st.cell? h).map fun c => c.view h.side

/-- Performs an edit through a handle. -/
def edit (st : Store α) (h : Handle) (e : Edit α) : Store α × List (SetError α) :=
  match st.cell? h with
  | none => (st, [.absentSet])
  | some c =>
    let (c, refused) := c.applyTo h.side e
    (⟨st.cells.set h.cell c⟩, refused)

/-- Starts a walk over the intervals that a handle names. -/
def walk (st : Store α) (h : Handle) : Cursor α :=
  match st.cell? h with
  | none => .ended
  | some c => .start c h.side

/-- One step of a walk over the intervals that a handle names. -/
def step (st : Store α) (h : Handle) (k : Cursor α) : Cursor α :=
  match st.cell? h with
  | none => k
  | some c => k.next c

/-! ### Requests -/

/-- A change asked of a store.  A bulk edit names the set that it reads by a handle; there may be
    none. -/
inductive Request (α : Type u) where
  /-- A new set with the union of some ranges. -/
  | make (cmp : α → α → Ordering) (ranges : List (Option (Range α)))
  | add (h : Handle) (r : Option (Range α))
  | remove (h : Handle) (r : Option (Range α))
  | addAll (h : Handle) (other : Option Handle)
  | removeAll (h : Handle) (other : Option Handle)
  | clear (h : Handle)
  /-- A new set with the intervals that a handle names. -/
  | copy (h : Handle)
  /-- A new read-only set with the intervals that a handle names. -/
  | freeze (h : Handle)

/-- The handle of the cell that is made next. -/
def fresh (st : Store α) : Handle :=
  ⟨st.cells.length, .inside⟩

/-- The intervals that a handle names, if there are any. -/
def intervals? (st : Store α) (h : Option Handle) : Option (List (Interval α)) :=
  (h.bind st.view?).map View.intervals

/-- Puts a cell made from the view that a handle names into a store. -/
def pushFrom (st : Store α) (h : Handle) (f : View α → Cell α) : Store α × List (SetError α) :=
  match st.view? h with
  | none => (st, [.absentSet])
  | some w => ((st.push (f w)).1, [])

/-- Does what is asked, and says what was refused. -/
def perform (st : Store α) : Request α → Store α × List (SetError α)
  | .make cmp rs =>
    let (c, refused) := Cell.ofRanges cmp rs
    ((st.push c).1, refused)
  | .add h r => st.edit h (.add r)
  | .remove h r => st.edit h (.remove r)
  | .addAll h other => st.edit h (.addAll (st.intervals? other))
  | .removeAll h other => st.edit h (.removeAll (st.intervals? other))
  | .clear h => st.edit h .clear
  | .copy h => st.pushFrom h fun w => .ofSet w.copy
  | .freeze h => st.pushFrom h fun w => .frozen w.copy

/-- Does what is asked, one request after another. -/
def run (st : Store α) : List (Request α) → Store α
  | [] => st
  | q :: qs => (st.perform q).1.run qs

end Store

end Allotment
