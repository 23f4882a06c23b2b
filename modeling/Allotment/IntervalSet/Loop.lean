import Allotment.IntervalSet.Store

namespace Allotment.Store

/-!
# Loops over a set

A loop walks over the intervals that a handle names and runs its body for each of them.  The body
may change the store, and so the very set that is walked over; whether the loop notices is up to the
cursor.

* `Ending` — how a loop came to its end;
* `forEach` — runs a loop.  The body works on a state that holds the store, and says whether to go
  on.
-/

universe u v

/-- How a loop over a set came to its end. -/
inductive Ending (α : Type u) where
  /-- The body asked for no more intervals. -/
  | left
  /-- There were no more intervals. -/
  | finished
  /-- The walk was cut short. -/
  | failed (e : SetError α)

variable {α : Type u} {σ : Type v}

/-- Runs a loop from a cursor on, unless it takes so many steps. -/
def forEachFrom (storeOf : σ → Store α) (h : Handle) (body : σ → Interval α → σ × Bool) :
    Nat → σ → Cursor α → Option (σ × Ending α)
  | 0, _, _ => none
  | patience + 1, s, k =>
    let k := (storeOf s).step h k
    match k.current? with
    | some i =>
      match body s i with
      | (s, true) => forEachFrom storeOf h body patience s k
      | (s, false) => some (s, .left)
    | none =>
      match k.error? with
      | some e => some (s, .failed e)
      | none => some (s, .finished)

/-- Runs a loop over the intervals that a handle names, unless it takes so many steps. -/
def forEach (storeOf : σ → Store α) (h : Handle) (body : σ → Interval α → σ × Bool) (patience : Nat)
    (s : σ) : Option (σ × Ending α) :=
  forEachFrom storeOf h body patience s ((storeOf s).walk h)

end Allotment.Store
