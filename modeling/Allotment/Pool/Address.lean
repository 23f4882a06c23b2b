import Allotment.Address.Conversion
import Allotment.Pool.Basic

namespace Allotment

/-!
# Pools of addresses

A pool of the addresses of one span, asked and changed by texts.  An address text must name an
address of the span; range and network texts are claimed as ranges of addresses.
-/

/-- A pool of addresses and the span that it covers. -/
structure AddressPool where
  pool : Pool Address Empty
  span : AddressSpan

namespace AddressPool

/-- Why an address pool refused something. -/
inductive Error where
  | unreadable (text : Text)
  | outside (text : Text) (span : AddressSpan)
  | taken (text : Text)
  | untaken (text : Text)
  | badSpan (text : Text) (e : AddressSpan.ParseError)
  | badNetwork (text : Text) (e : Network.ParseError)
  | conversion (e : Address.ConversionError)
  | claim (e : ClaimError Address Empty)
  | create (e : CreateError Address)

/-- The message of a refusal. -/
def Error.message : Error → String
  | .unreadable t => "ip address " ++ t.toString ++ " is invalid"
  | .outside t s =>
    "ip address " ++ t.toString ++ ", does not fit in the range from " ++ s.first.text ++ " to " ++
      s.last.text
  | .taken t => "claim failed ip " ++ t.toString ++ " already claimed"
  | .untaken t => "update failed ip " ++ t.toString ++ " not claimed"
  | .badSpan t e => "ip range " ++ t.toString ++ " is invalid: " ++ e.message
  | .badNetwork t e => "prefix " ++ t.toString ++ " is invalid: " ++ e.message
  | .conversion e => e.message
  | .claim e => e.message Empty.elim
  | .create e => e.message

/-- The pool of the addresses from `first` to `last`. -/
def create (first last : Address) : Except Error AddressPool := do
  let span := AddressSpan.between first last
  let bounds ← (Address.ofSpan span).mapError .conversion
  let created := Pool.create (.ofString span.text) (some bounds) (some Address.domain)
    (fun _ => none) []
  let (pool, _) ← created.mapError .create
  pure ⟨pool, span⟩

/-- The address of the span that a text names. -/
def address (p : AddressPool) (t : Text) : Except Error Address :=
  match Address.parse t with
  | .error _ => .error (.unreadable t)
  | .ok a => if p.span.contains a then .ok a else .error (.outside t p.span)

/-- The range that a span text names. -/
def spanRange (t : Text) : Except Error (Range Address) := do
  let s ← (AddressSpan.parse t).mapError (.badSpan t)
  (Address.ofSpan s).mapError .conversion

/-- The range that a network text names. -/
def networkRange (t : Text) : Except Error (Range Address) := do
  let n ← (Network.parse t).mapError (.badNetwork t)
  (Address.ofNetwork (some n)).mapError .conversion

/-- The pool of addresses after a change of the pool under it. -/
def after {β : Type} (p : AddressPool)
    (a : Attempt (Pool Address Empty) (ClaimError Address Empty) β) : Attempt AddressPool Error β :=
  (a.mapState fun q => { p with pool := q }).mapError .claim

/-- The claim on an address. -/
def claimOf (p : AddressPool) (t : Text) : Except Error (Claim Address) := do
  let a ← p.address t
  (p.pool.claimOf a).mapError .claim

/-- Claims an address. -/
def claim (p : AddressPool) (t : Text) (labels : Labels) : Attempt AddressPool Error Unit :=
  (Attempt.ofExcept p (p.address t)).andThen fun p a =>
    if !p.pool.isFree a then .refuse p (.taken t) else p.after (p.pool.claim a labels)

/-- Claims the addresses of a span. -/
def claimSpan (p : AddressPool) (t : Text) (labels : Labels) : Attempt AddressPool Error Unit :=
  (Attempt.ofExcept p (spanRange t)).andThen fun p r => p.after (p.pool.claimRange (some r) labels)

/-- Claims the addresses of a network. -/
def claimNetwork (p : AddressPool) (t : Text) (labels : Labels) : Attempt AddressPool Error Unit :=
  (Attempt.ofExcept p (networkRange t)).andThen fun p r =>
    p.after (p.pool.claimRange (some r) labels)

/-- Claims the first free address. -/
def claimFirst (p : AddressPool) (labels : Labels) : Option (Attempt AddressPool Error Address) :=
  (p.pool.claimFirst labels).map p.after

/-- Releases an address. -/
def release (p : AddressPool) (t : Text) : Attempt AddressPool Error Unit :=
  (Attempt.ofExcept p (p.address t)).andThen fun p a => p.after (p.pool.release a)

/-- Releases the addresses of a span. -/
def releaseSpan (p : AddressPool) (t : Text) : Attempt AddressPool Error Unit :=
  (Attempt.ofExcept p (spanRange t)).andThen fun p r => p.after (p.pool.releaseRange (some r))

/-- Gives a claimed address new labels. -/
def relabel (p : AddressPool) (t : Text) (labels : Labels) : Attempt AddressPool Error Unit :=
  (Attempt.ofExcept p (p.address t)).andThen fun p a =>
    if p.pool.isFree a then .refuse p (.untaken t) else p.after (p.pool.relabel a labels)

/-! ### Requests -/

/-- A change asked of a pool of addresses. -/
inductive Request where
  | claim (t : Text) (labels : Labels)
  | claimSpan (t : Text) (labels : Labels)
  | claimNetwork (t : Text) (labels : Labels)
  | claimFirst (labels : Labels)
  | release (t : Text)
  | releaseSpan (t : Text)
  | relabel (t : Text) (labels : Labels)

/-- Does what is asked.  The answer to `claimFirst` is the address that was found; the other
    requests have no address to give. -/
def perform (p : AddressPool) : Request → Option (Attempt AddressPool Error (Option Address))
  | .claim t labels => some ((p.claim t labels).map fun _ => none)
  | .claimSpan t labels => some ((p.claimSpan t labels).map fun _ => none)
  | .claimNetwork t labels => some ((p.claimNetwork t labels).map fun _ => none)
  | .claimFirst labels => (p.claimFirst labels).map (·.map some)
  | .release t => some ((p.release t).map fun _ => none)
  | .releaseSpan t => some ((p.releaseSpan t).map fun _ => none)
  | .relabel t labels => some ((p.relabel t labels).map fun _ => none)

/-- Does what is asked, one request after another, whether the requests are met or not. -/
def run (p : AddressPool) : List Request → Option AddressPool
  | [] => some p
  | q :: qs => (p.perform q).bind fun a => a.state.run qs

/-! ### Queries -/

/-- Whether a text names a claimed address. -/
def isClaimed (p : AddressPool) (t : Text) : Bool :=
  match p.address t with
  | .ok a => p.pool.isClaimed a
  | .error _ => false

/-- Whether a text names a free address. -/
def isFree (p : AddressPool) (t : Text) : Bool :=
  match p.address t with
  | .ok a => p.pool.isFree a
  | .error _ => false

/-- The first free address. -/
def firstFree (p : AddressPool) : Except Error Address :=
  p.pool.firstFree.mapError .claim

/-- The free addresses. -/
def free (p : AddressPool) : Except Error AddressSet :=
  (Address.toSet ⟨p.pool.free, .inside⟩).mapError .conversion

end AddressPool

end Allotment
