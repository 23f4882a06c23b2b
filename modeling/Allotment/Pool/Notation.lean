import Allotment.Pool.Address
import Allotment.Pool.Vlan
import Allotment.Pool.Vni
import Allotment.Range.Parser

namespace Allotment

/-!
# Claims written as texts

Pools created from texts, and claims on them given as texts.  Pools of numbers read interval
notation; the pools of VLAN and network ids need both ends of the interval.  Pools of addresses read
a network, a span or a single address.

A claim on network ids is entered id by id, so one that fails may have entered some of them.
-/

/-- Why a text did not make a pool or a claim. -/
inductive NotationError where
  | badRange (e : Range.ParseError Decimal.Error)
  | unbounded (r : Range Int64)
  | badNetwork (e : Network.ParseError)
  | badSpan (e : AddressSpan.ParseError)
  | badAddress (e : Address.ParseError)
  | create (e : CreateError Int64)
  | claim (e : ClaimError Int64 Empty)
  | vlan (e : VlanPool.SizeError)
  | vni (e : VniPool.CreateError)
  | address (e : AddressPool.Error)

/-- The message of a refused text. -/
def NotationError.message : NotationError → String
  | .badRange e => e.message Decimal.Error.message
  | .unbounded r => "invalid range: invalid argument: " ++ r.text ++ " must be bounded"
  | .badNetwork e => e.message
  | .badSpan e => e.message
  | .badAddress e => e.message
  | .create e => e.message
  | .claim e => e.message Empty.elim
  | .vlan e => e.message
  | .vni e => e.message
  | .address e => e.message

/-! ### Pools of numbers -/

/-- The range that interval notation stands for. -/
def numbersOf (t : Text) : Except NotationError (Range Int64) :=
  (Range.parseInt t).mapError .badRange

/-- The ends of the half-open form of a range written in interval notation. -/
def endsOf (t : Text) : Except NotationError (Int64 × Int64) := do
  let r := (← numbersOf t).canonical .int64
  match r.lower.endpoint?, r.upper.endpoint? with
  | some a, some b => pure (a, b)
  | _, _ => throw (.unbounded r)

/-- A pool of numbers; nothing speaks against claiming any of them. -/
abbrev NumberPool := Pool Int64 Empty

namespace NumberPool

/-- The pool of the numbers in a range. -/
def ofText (name t : Text) : Except NotationError NumberPool := do
  let r ← numbersOf t
  let (p, _) ← (Pool.create name (some r) (some .int64) (fun _ => none) []).mapError .create
  pure p

/-- Claims the numbers in a range. -/
def claimText (p : NumberPool) (t : Text) (labels : Labels) :
    Attempt NumberPool NotationError Unit :=
  (Attempt.ofExcept p (numbersOf t)).andThen fun p r =>
    (p.claimRange (some r) labels).mapError .claim

end NumberPool

/-- Claims the VLAN ids in a range, by the first id and the number of ids. -/
def VlanPool.claimText (p : VlanPool) (t : Text) (labels : Labels) :
    Attempt VlanPool NotationError Unit :=
  (Attempt.ofExcept p (endsOf t)).andThen fun p ends =>
    (p.claimSized ends.1 (ends.2 - ends.1) labels).mapError .vlan

namespace VniPool

/-- The pool of the network ids in a range. -/
def ofText (t : Text) : Except NotationError VniPool := do
  let (a, b) ← endsOf t
  (create a b).mapError .vni

/-- Claims a number of ids from `v` on, one by one, up to the first that is refused. -/
def claimIds (labels : Labels) : Nat → Int64 → VniPool → Attempt VniPool NotationError Unit
  | 0, _, p => .done p ()
  | n + 1, v, p =>
    ((p.claim v labels).mapError .claim).andThen fun p _ => claimIds labels n (v + 1) p

/-- Claims the network ids in a range, one by one. -/
def claimText (p : VniPool) (t : Text) (labels : Labels) : Attempt VniPool NotationError Unit :=
  (Attempt.ofExcept p (endsOf t)).andThen fun p ends =>
    claimIds labels (ends.2.toInt - ends.1.toInt).toNat ends.1 p

end VniPool

/-! ### Pools of addresses -/

/-- The span that a text names: that of a network if it has a slash, a span if it has a hyphen, else
    that of one address. -/
def spanOf (t : Text) : Except NotationError AddressSpan :=
  if t.contains (.char '/') then
    match Network.parse t with
    | .ok n => .ok n.span
    | .error e => .error (.badNetwork e)
  else if t.contains (.char '-') then
    (AddressSpan.parse t).mapError .badSpan
  else
    match Address.parse t with
    | .ok a => .ok (AddressSpan.between a a)
    | .error e => .error (.badAddress e)

namespace AddressPool

/-- The pool of the addresses that a text names. -/
def ofText (t : Text) : Except NotationError AddressPool := do
  let s ← spanOf t
  (create s.first s.last).mapError .address

/-- Claims the addresses that a text names. -/
def claimText (p : AddressPool) (t : Text) (labels : Labels) :
    Attempt AddressPool NotationError Unit :=
  (Attempt.ofExcept p (spanOf t)).andThen fun p s =>
    (p.claimSpan (Text.ofString s.text) labels).mapError .address

end AddressPool

end Allotment
