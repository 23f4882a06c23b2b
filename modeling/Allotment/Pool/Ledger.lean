import Allotment.Attempt
import Allotment.Domain
import Allotment.IntervalSet.Cell
import Allotment.Labels
import Allotment.Pool.Shape

namespace Allotment

/-!
# Claims in their order

A ledger keeps claims in the order of their lower cuts, each lower cut once.  Two claims are
compared in the order of the first one's range.  When all ranges are of one order, the claims are
sorted in it; ranges of several orders are found along the shape in which the claims are grouped.

* `Ledger.put`, `Ledger.drop` — put a claim in, and take one out;
* `Ledger.overlapping` — the claims that share values with a range;
* `Ledger.cut` — takes the values of a range out of every claim.
-/

universe u

/-- A range of values with the labels that it was claimed with. -/
structure Claim (α : Type u) where
  range : Range α
  labels : Labels

/-- The text of a claim. -/
def Claim.text {α : Type u} [Display α] (c : Claim α) : String :=
  "range: " ++ c.range.text ++ ", labels: " ++ c.labels.text.toString

/-- Claims, and how they are grouped. -/
structure Ledger (α : Type u) where
  claims : List (Claim α)
  shape : Shape

namespace Ledger

variable {α : Type u}

/-- No claims. -/
def empty : Ledger α :=
  ⟨[], .leaf 0⟩

/-- Looks for the lower cut of a range.  It is compared in the order of `r`, and the claims are
    compared with it in their own orders. -/
def probe (r : Range α) : Probe (Claim α) where
  isBefore c := (r.compareLower c.range).isLT
  isAfter c := (c.range.compareLower r).isLT

/-- Puts a claim at its place; it takes the place of a claim with the same lower cut. -/
def put (l : Ledger α) (c : Claim α) : Ledger α :=
  let (spot, shape) := l.shape.insert (probe c.range) l.claims
  ⟨l.claims.take spot.start ++ c :: l.claims.drop spot.stop, shape⟩

/-- Drops the claim with a lower cut. -/
def drop (l : Ledger α) (c : Claim α) : Ledger α :=
  let (spot, shape) := l.shape.remove (probe c.range) l.claims
  ⟨l.claims.take spot.start ++ l.claims.drop spot.stop, shape⟩

/-- The claim with the greatest lower cut at or before that of `r`. -/
def lastUpTo? (l : Ledger α) (r : Range α) : Option (Claim α) :=
  (l.shape.last? (probe r) l.claims).bind fun k => l.claims[k]?

/-- The claims with a lower cut after that of `r`. -/
def startingAfter (l : Ledger α) (r : Range α) : List (Claim α) :=
  ((l.shape.startingAt (probe r) l.claims).filterMap fun k => l.claims[k]?).filter fun c =>
    !(c.range.compareLower r).isEq

/-- The claims that share values with `r`, in increasing order. -/
def overlapping (l : Ledger α) (r : Range α) : List (Claim α) :=
  ((l.lastUpTo? r).filter fun c => c.range.overlaps r).toList ++
    (l.startingAfter r).takeWhile fun c => c.range.overlaps r

/-- What is left of a claim outside `r`, with its labels. -/
def remainders (d : Domain α) (r : Range α) (c : Claim α) :
    Except (List (SetError α)) (List (Claim α)) :=
  let whole := Attempt.ofRefusals (Cell.ofRanges r.cmp [some c.range])
  let rest := whole.andThen fun cell _ => .ofRefusals (cell.apply (.remove (some r)))
  rest.toExcept.map fun cell =>
    cell.set.members.map fun m => ⟨Range.canonical d ⟨m, r.cmp⟩, c.labels⟩

/-- Replaces one claim by what is left of it outside `r`. -/
def cutOne (d : Domain α) (r : Range α) (l : Ledger α) (c : Claim α) :
    Attempt (Ledger α) (List (SetError α)) Unit :=
  let dropped := l.drop c
  match remainders d r c with
  | .ok rest => .done (rest.foldl put dropped) ()
  | .error refused => .refuse dropped refused

/-- Takes the values of `r` out of every claim that shares some with it. -/
def cut (l : Ledger α) (d : Domain α) (r : Range α) : Attempt (Ledger α) (List (SetError α)) Unit :=
  Attempt.each (cutOne d r) l (l.overlapping r)

end Ledger

end Allotment
