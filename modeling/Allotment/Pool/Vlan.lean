import Allotment.Order
import Allotment.Pool.Basic

namespace Allotment

/-!
# VLAN ids

The pool of the 12-bit VLAN ids.  The untagged, the default and the last id are claimed from the
start, and no operation may touch them.  Beside the operations of every pool there are sized ones,
which name a block by its first id and its size; sums of ids are those of 64-bit words.
-/

/-- The reserved VLAN ids. -/
inductive ReservedVlan where
  | untagged
  | default
  | last
deriving DecidableEq

namespace ReservedVlan

/-- The number of a reserved id. -/
def id : ReservedVlan → Int64
  | .untagged => 0
  | .default => 1
  | .last => 4095

/-- What makes an id reserved, in words. -/
def words : ReservedVlan → String
  | .untagged => "the untagged VLAN"
  | .default => "the default VLAN"
  | .last => "reserved"

/-- The message for a claim on a reserved id. -/
def message (v : ReservedVlan) : String :=
  "VLAN " ++ display v.id ++ " is " ++ v.words ++ ", cannot be added to the database"

/-- All reserved ids. -/
def all : List ReservedVlan :=
  [.untagged, .default, .last]

end ReservedVlan

/-- A pool of VLAN ids. -/
abbrev VlanPool := Pool Int64 ReservedVlan

namespace VlanPool

/-- The first reserved id in a range. -/
def check (r : Range Int64) : Option ReservedVlan :=
  ReservedVlan.all.find? fun v => r.contains v.id

/-- The labels of the reserved ids. -/
def reservedLabels : Labels :=
  .ofStrings [("type", "untagged"), ("status", "reserved")]

/-- The range of the ids from `a` up to, but not including, `b`. -/
def block (a b : Int64) : Range Int64 :=
  ⟨.closedOpen a b, Order.int64⟩

/-- The pool of all VLAN ids before the reserved ones are entered. -/
def bare : VlanPool :=
  { name := .ofString "vlan"
    bounds := block 0 4096
    domain := .int64
    check := check
    claimed := .ofSet (.empty Order.int64)
    ledger := .empty
    journal := [] }

/-- The pool of all VLAN ids. -/
def initial : VlanPool :=
  (bare.enterAll (ReservedVlan.all.map fun v =>
    (some ⟨.singleton v.id, Order.int64⟩, reservedLabels))).1

/-- Why a sized operation was refused. -/
inductive SizeError where
  | badSize (size : Int64)
  | noBlock (size : Int64)
  | claim (e : ClaimError Int64 ReservedVlan)

/-- The message of a refused sized operation. -/
def SizeError.message : SizeError → String
  | .badSize n => "invalid argument: size " ++ display n
  | .noBlock n => "no free entry found with size " ++ display n
  | .claim e => e.message ReservedVlan.message

/-- The block of `size` ids from `start` on. -/
def sized (start size : Int64) : Except SizeError (Range Int64) :=
  if size.toInt < 1 then .error (.badSize size) else .ok (block start (start + size))

/-- Claims `size` ids from `start` on. -/
def claimSized (p : VlanPool) (start size : Int64) (labels : Labels) :
    Attempt VlanPool SizeError Unit :=
  (Attempt.ofExcept p (sized start size)).andThen fun p r =>
    (p.claimRange (some r) labels).mapError .claim

/-- Releases `size` ids from `start` on. -/
def releaseSized (p : VlanPool) (start size : Int64) : Attempt VlanPool SizeError Unit :=
  (Attempt.ofExcept p (sized start size)).andThen fun p r =>
    (p.releaseRange (some r)).mapError .claim

/-- The block of `size` ids at the start of a free interval that has room for it. -/
def blockAt? (size : Int64) (i : Interval Int64) : Option (Range Int64) :=
  let lower := i.lower.endpoint?.getD 0
  let upper := i.upper.endpoint?.getD 0
  if size.toInt ≤ (upper - lower).toInt then some (block lower (lower + size)) else none

/-- The first free block of `size` ids. -/
def freeBlock (p : VlanPool) (size : Int64) : Except SizeError (Range Int64) :=
  if size.toInt < 1 then .error (.badSize size)
  else
    match p.free.members.findSome? (blockAt? size) with
    | some r => .ok r
    | none => .error (.noBlock size)

/-- Claims the first free block of `size` ids. -/
def claimBlock (p : VlanPool) (size : Int64) (labels : Labels) :
    Attempt VlanPool SizeError (Range Int64) :=
  (Attempt.ofExcept p (p.freeBlock size)).andThen fun p r =>
    ((p.claimRange (some r) labels).mapError .claim).andThen fun p _ => .done p r

/-! ### Requests -/

/-- A change asked of the pool of VLAN ids. -/
inductive Request where
  | claim (v : Int64) (labels : Labels)
  | claimFirst (labels : Labels)
  | claimSized (start size : Int64) (labels : Labels)
  | claimBlock (size : Int64) (labels : Labels)
  | release (v : Int64)
  | releaseSized (start size : Int64)
  | relabel (v : Int64) (labels : Labels)

/-- What a request gives when it is met. -/
inductive Answer where
  | nothing
  | id (v : Int64)
  | block (r : Range Int64)

/-- Does what is asked. -/
def perform (p : VlanPool) : Request → Option (Attempt VlanPool SizeError Answer)
  | .claim v labels => some (((p.claim v labels).mapError .claim).map fun _ => .nothing)
  | .claimFirst labels => (p.claimFirst labels).map fun a => (a.mapError .claim).map .id
  | .claimSized start size labels => some ((p.claimSized start size labels).map fun _ => .nothing)
  | .claimBlock size labels => some ((p.claimBlock size labels).map .block)
  | .release v => some (((p.release v).mapError .claim).map fun _ => .nothing)
  | .releaseSized start size => some ((p.releaseSized start size).map fun _ => .nothing)
  | .relabel v labels => some (((p.relabel v labels).mapError .claim).map fun _ => .nothing)

/-- Does what is asked, one request after another, whether the requests are met or not. -/
def run (p : VlanPool) : List Request → Option VlanPool
  | [] => some p
  | q :: qs => (p.perform q).bind fun a => run a.state qs

end VlanPool

end Allotment
