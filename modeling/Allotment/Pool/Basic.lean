import Allotment.Pool.Ledger

namespace Allotment

/-!
# Pools

A pool hands out the values of an interval of a discrete domain as labelled claims.  Claims do not
overlap, and each is held in half-open form.  Beside the claims, a pool holds the set of the claimed
values and a journal of what was done.

* `Pool.create` — a pool with its first claims;
* `Pool.claimRange`, `releaseRange`, `relabelRange`, `claimFirst` — the changes;
* `Pool.Request`, `Pool.perform`, `Pool.run` — the changes as data, one after another;
* `Pool.claimOf`, `isClaimed`, `isFree`, `free`, `firstFree`, `select` — the queries.

A pool may have a check that refuses some claims.  The claims that a pool is created with are not
checked.

A change is an `Attempt`: the pool after it stands beside the answer, also when the answer is an
error.  The search of `claimFirst` climbs from value to value; on a domain without a last value it
may never come to an end.  When the patience of the domain is over there is no attempt.
-/

universe u

/-- What a pool did. -/
inductive Event (α : Type u) where
  | claimed (r : Range α) (labels : Labels)
  | released (r : Range α)
  | relabelled (r : Range α) (labels : Labels)

/-- Why a pool refused something.  `ρ` is what its check reports. -/
inductive ClaimError (α : Type u) (ρ : Type u) where
  | invalidRange (r : Option (Range α))
  | emptyRange (r : Range α)
  | outOfPool (r bounds : Range α)
  | refused (reason : ρ)
  | alreadyClaimed (r : Range α)
  | notClaimed (r : Range α)
  | notFound (v : α)
  | noFree
  /-- A set refused its part of the work. -/
  | sets (es : List (SetError α))

/-- The message of a refusal. -/
def ClaimError.message {α : Type u} {ρ : Type u} [Display α] (reason : ρ → String) :
    ClaimError α ρ → String
  | .invalidRange r => "invalid range: invalid argument: " ++ Range.Optional.text r
  | .emptyRange r => "invalid range: invalid argument: " ++ r.text ++ " is empty"
  | .outOfPool r b => "range " ++ r.text ++ " does not fit in the pool " ++ b.text
  | .refused e => reason e
  | .alreadyClaimed r => "range " ++ r.text ++ " already claimed"
  | .notClaimed r => "range " ++ r.text ++ " not claimed"
  | .notFound v => "no match found for: " ++ display v
  | .noFree => "no free entry found"
  | .sets es => "\n".intercalate (es.map SetError.message)

/-- Why a pool could not be created. -/
inductive CreateError (α : Type u) where
  | absentDomain (name : Text)
  | badBounds (name : Text) (bounds : Option (Range α))
  | emptyBounds (name : Text) (bounds : Range α)

/-- The message of a pool that could not be created. -/
def CreateError.message {α : Type u} [Display α] : CreateError α → String
  | .absentDomain n => "table " ++ n.quoted ++ ": invalid argument: nil domain"
  | .badBounds n b =>
    "table " ++ n.quoted ++ ": pool " ++ Range.Optional.text b ++
      " must be a valid range with a lower bound"
  | .emptyBounds n b => "table " ++ n.quoted ++ ": pool " ++ b.text ++ " is empty"

/-- A bounded stretch of a discrete domain and the claims on it. -/
structure Pool (α : Type u) (ρ : Type u) where
  name : Text
  bounds : Range α
  domain : Domain α
  /-- What speaks against claiming a range in half-open form. -/
  check : Range α → Option ρ
  claimed : Cell α
  ledger : Ledger α
  journal : List (Event α)

namespace Pool

variable {α : Type u} {ρ : Type u}

/-- The claims in the order in which they are kept. -/
def claims (p : Pool α ρ) : List (Claim α) :=
  p.ledger.claims

/-! ### Admission -/

/-- A single value as a range of the pool. -/
def singleton (p : Pool α ρ) (v : α) : Range α :=
  ⟨.singleton v, p.bounds.cmp⟩

/-- The half-open form of a range, when it is valid, holds values and fits into the pool. -/
def fit (p : Pool α ρ) (r : Option (Range α)) : Except (ClaimError α ρ) (Range α) :=
  match r with
  | none => .error (.invalidRange none)
  | some r =>
    if !r.isValid then .error (.invalidRange (some r))
    else
      let c := r.canonical p.domain
      if c.isEmpty then .error (.emptyRange r)
      else if !p.bounds.encloses c then .error (.outOfPool r p.bounds)
      else .ok c

/-- The half-open form of a range that fits into the pool, unless the check speaks against it. -/
def vet (p : Pool α ρ) (r : Option (Range α)) : Except (ClaimError α ρ) (Range α) := do
  let c ← p.fit r
  match p.check c with
  | some reason => throw (.refused reason)
  | none => pure c

/-! ### Parts of a change -/

/-- Edits the set of the claimed values. -/
def editClaimed (p : Pool α ρ) (e : Edit α) : Attempt (Pool α ρ) (ClaimError α ρ) Unit :=
  ((Attempt.ofRefusals (p.claimed.apply e)).mapState fun c => { p with claimed := c }).mapError
    .sets

/-- Takes the values of a range out of every claim. -/
def cutClaims (p : Pool α ρ) (c : Range α) : Attempt (Pool α ρ) (ClaimError α ρ) Unit :=
  ((p.ledger.cut p.domain c).mapState fun l => { p with ledger := l }).mapError .sets

/-- Puts a claim into the ledger. -/
def putClaim (p : Pool α ρ) (c : Claim α) : Pool α ρ :=
  { p with ledger := p.ledger.put c }

/-- Writes an event into the journal. -/
def record (p : Pool α ρ) (e : Event α) : Pool α ρ :=
  { p with journal := p.journal ++ [e] }

/-! ### Changes -/

/-- Enters a claim for the half-open range `c`, which was asked for as `r`. -/
def enter (p : Pool α ρ) (r c : Range α) (labels : Labels) :
    Attempt (Pool α ρ) (ClaimError α ρ) Unit :=
  if p.claimed.set.intersects (some c) then .refuse p (.alreadyClaimed r)
  else
    (p.editClaimed (.add (some c))).andThen fun p _ =>
      .done ((p.putClaim ⟨c, labels⟩).record (.claimed c labels)) ()

/-- Claims a range of values. -/
def claimRange (p : Pool α ρ) (r : Option (Range α)) (labels : Labels) :
    Attempt (Pool α ρ) (ClaimError α ρ) Unit :=
  (Attempt.ofExcept p (p.vet r)).andThen fun p c => p.enter (r.getD c) c labels

/-- Claims a range of values without asking the check. -/
def claimUnchecked (p : Pool α ρ) (r : Option (Range α)) (labels : Labels) :
    Attempt (Pool α ρ) (ClaimError α ρ) Unit :=
  (Attempt.ofExcept p (p.fit r)).andThen fun p c => p.enter (r.getD c) c labels

/-- Claims one value. -/
def claim (p : Pool α ρ) (v : α) (labels : Labels) : Attempt (Pool α ρ) (ClaimError α ρ) Unit :=
  p.claimRange (some (p.singleton v)) labels

/-- Releases the claimed values of a range.  A claim that only partly lies in the range keeps its
    other values and its labels. -/
def releaseRange (p : Pool α ρ) (r : Option (Range α)) : Attempt (Pool α ρ) (ClaimError α ρ) Unit :=
  (Attempt.ofExcept p (p.vet r)).andThen fun p c =>
    (p.cutClaims c).andThen fun p _ =>
      (p.editClaimed (.remove (some c))).andThen fun p _ => .done (p.record (.released c)) ()

/-- Releases one value. -/
def release (p : Pool α ρ) (v : α) : Attempt (Pool α ρ) (ClaimError α ρ) Unit :=
  p.releaseRange (some (p.singleton v))

/-- Gives the values of a range new labels; all of them must be claimed.  A claim that only partly
    lies in the range is split. -/
def relabelRange (p : Pool α ρ) (r : Option (Range α)) (labels : Labels) :
    Attempt (Pool α ρ) (ClaimError α ρ) Unit :=
  (Attempt.ofExcept p (p.vet r)).andThen fun p c =>
    if !p.claimed.set.encloses (some c) then .refuse p (.notClaimed (r.getD c))
    else
      (p.cutClaims c).andThen fun p _ =>
        .done ((p.putClaim ⟨c, labels⟩).record (.relabelled c labels)) ()

/-- Gives one value new labels. -/
def relabel (p : Pool α ρ) (v : α) (labels : Labels) : Attempt (Pool α ρ) (ClaimError α ρ) Unit :=
  p.relabelRange (some (p.singleton v)) labels

/-! ### Queries -/

/-- The number of claims. -/
def count (p : Pool α ρ) : Nat :=
  p.claims.length

/-- Whether a value is claimed. -/
def isClaimed (p : Pool α ρ) (v : α) : Bool :=
  p.claimed.set.contains v

/-- Whether a value is in the pool and not claimed. -/
def isFree (p : Pool α ρ) (v : α) : Bool :=
  p.bounds.contains v && !p.claimed.set.contains v

/-- A set of the values of the pool that are not claimed. -/
def unclaimed (p : Pool α ρ) : Except (List (SetError α)) (Cell α) :=
  let whole := Attempt.ofRefusals (Cell.ofRanges p.bounds.cmp [some p.bounds])
  let rest := whole.andThen fun c _ =>
    .ofRefusals (Cell.meet (c.view .inside) (p.claimed.view .outside))
  rest.toExcept

/-- The values of the pool that are not claimed; none, if they cannot be told. -/
def free (p : Pool α ρ) : IntervalSet α :=
  match p.unclaimed with
  | .ok c => c.set
  | .error _ => .empty p.bounds.cmp

/-- The claim that contains a value, if the last claim up to the value does. -/
def claimContaining? (p : Pool α ρ) (v : α) : Option (Claim α) :=
  (p.ledger.lastUpTo? (p.singleton v)).filter fun c => c.range.contains v

/-- The claim on a value of the pool. -/
def claimOf (p : Pool α ρ) (v : α) : Except (ClaimError α ρ) (Claim α) := do
  let _ ← p.fit (some (p.singleton v))
  match p.claimContaining? v with
  | some c => pure c
  | none => throw (.notFound v)

/-- The first free value. -/
def firstFree (p : Pool α ρ) : Except (ClaimError α ρ) α :=
  match p.unclaimed with
  | .error es => .error (.sets es)
  | .ok c =>
    match c.set.members.head?.bind fun m => m.lower.endpoint? with
    | some v => .ok v
    | none => .error .noFree

/-- The claims that a selector chooses. -/
def select (p : Pool α ρ) (s : Selector) : List (Claim α) :=
  p.claims.filter fun c => s.chooses c.labels

/-! ### Claiming the first value that the check lets pass -/

/-- Climbs from `v` within an interval and claims the first value that can be claimed, unless it is
    not found among so many values. -/
def claimWithin (i : Interval α) (labels : Labels) :
    Nat → Pool α ρ → α → Option (Attempt (Pool α ρ) (ClaimError α ρ) α)
  | 0, _, _ => none
  | patience + 1, p, v =>
    if i.contains p.bounds.cmp v then
      let a := p.claim v labels
      match a.answer with
      | .ok _ => some (.done a.state v)
      | .error _ =>
        match p.domain.next v with
        | some w => claimWithin i labels patience a.state w
        | none => some (.refuse a.state .noFree)
    else some (.refuse p .noFree)

/-- Claims the first value of some free intervals that can be claimed. -/
def claimAmong (labels : Labels) (p : Pool α ρ) :
    List (Interval α) → Option (Attempt (Pool α ρ) (ClaimError α ρ) α)
  | [] => some (.refuse p .noFree)
  | i :: is =>
    match i.lower.endpoint? with
    | none => claimAmong labels p is
    | some v =>
      (claimWithin i labels p.domain.patience p v).bind fun a =>
        match a.answer with
        | .ok _ => some a
        | .error _ => claimAmong labels a.state is

/-- Claims the first free value that the check lets pass. -/
def claimFirst (p : Pool α ρ) (labels : Labels) : Option (Attempt (Pool α ρ) (ClaimError α ρ) α) :=
  match p.unclaimed with
  | .error es => some (.refuse p (.sets es))
  | .ok c => claimAmong labels p c.set.members

/-! ### Requests -/

/-- A change asked of a pool. -/
inductive Request (α : Type u) where
  | claim (v : α) (labels : Labels)
  | claimRange (r : Option (Range α)) (labels : Labels)
  | claimFirst (labels : Labels)
  | release (v : α)
  | releaseRange (r : Option (Range α))
  | relabel (v : α) (labels : Labels)
  | relabelRange (r : Option (Range α)) (labels : Labels)

/-- Does what is asked.  The answer to `claimFirst` is the value that was found; the other requests
    have no value to give. -/
def perform (p : Pool α ρ) : Request α → Option (Attempt (Pool α ρ) (ClaimError α ρ) (Option α))
  | .claim v labels => some ((p.claim v labels).map fun _ => none)
  | .claimRange r labels => some ((p.claimRange r labels).map fun _ => none)
  | .claimFirst labels => (p.claimFirst labels).map (·.map some)
  | .release v => some ((p.release v).map fun _ => none)
  | .releaseRange r => some ((p.releaseRange r).map fun _ => none)
  | .relabel v labels => some ((p.relabel v labels).map fun _ => none)
  | .relabelRange r labels => some ((p.relabelRange r labels).map fun _ => none)

/-- Does what is asked, one request after another, whether the requests are met or not.  There is no
    pool after a request that was given up. -/
def run (p : Pool α ρ) : List (Request α) → Option (Pool α ρ)
  | [] => some p
  | q :: qs => (p.perform q).bind fun a => a.state.run qs

/-! ### Creating a pool -/

/-- Enters the first claims of a pool; those that are refused are reported. -/
def enterAll (p : Pool α ρ) : List (Option (Range α) × Labels) → Pool α ρ × List (ClaimError α ρ)
  | [] => (p, [])
  | (r, labels) :: rest =>
    let a := p.claimUnchecked r labels
    let (q, others) := a.state.enterAll rest
    match a.answer with
    | .ok _ => (q, others)
    | .error e => (q, e :: others)

/-- Creates a pool with its first claims.  Its bounds must be valid, have a lower end and hold a
    value. -/
def create (name : Text) (bounds : Option (Range α)) (domain : Option (Domain α))
    (check : Range α → Option ρ) (first : List (Option (Range α) × Labels)) :
    Except (CreateError α) (Pool α ρ × List (ClaimError α ρ)) :=
  match domain, bounds with
  | none, _ => .error (.absentDomain name)
  | some _, none => .error (.badBounds name none)
  | some d, some b =>
    if !b.isValid || !b.lower.isBounded then .error (.badBounds name (some b))
    else
      let c := b.canonical d
      if c.isEmpty then .error (.emptyBounds name b)
      else
        let pool : Pool α ρ := ⟨name, c, d, check, .ofSet (.empty c.cmp), .empty, []⟩
        .ok (pool.enterAll first)

end Pool

end Allotment
