import Allotment.Config.Basic
import Allotment.IdBlock
import Allotment.Pool.Journal
import Allotment.Pool.Notation

namespace Allotment

/-!
# Reports on configured pools

`Report.ofConfig` creates the pools of a configuration, enters their claims, and shows what is
claimed and what is free in each.  A pool that cannot be created, or has a claim that is refused, is
reported as an error and left out; what it did up to then stays in the journal.  The free ids of
VLAN and network id pools can be shown as blocks too.
-/

namespace Report

/-- Why a pool, or a part of what is shown of it, is missing in a report. -/
inductive Error where
  | unknownKind (kind : Text)
  | badText (e : NotationError)
  | address (e : AddressPool.Error)
  | blocks (e : IdBlock.Error)

/-- The message of an error. -/
def Error.message : Error → String
  | .unknownKind k => "unknown kind " ++ k.quoted
  | .badText e => e.message
  | .address e => e.message
  | .blocks e => e.message

/-- What is shown of a pool.  Pools of ids with a fixed number of bits also give their free ids and
    that number. -/
structure Summary where
  entries : Nat
  claimed : String
  free : String
  freeIds : Option (IntervalSet Int64 × UInt8)

/-- The outcome for one pool: the lines of its journal, and what is shown of it. -/
structure Outcome where
  journal : List String
  summary : Except Error Summary

/-! ### Summaries -/

/-- The union of the ranges of some claims. -/
def unionOf {α : Type} (cmp : α → α → Ordering) (claims : List (Claim α)) : View α :=
  (Cell.ofRanges cmp (claims.map fun c => some c.range)).1.view .inside

/-- The summary of a pool of numbers. -/
def numberSummary (p : NumberPool) : Summary :=
  { entries := p.count
    claimed := (p.claimed.view .inside).text
    free := View.text ⟨p.free, .inside⟩
    freeIds := none }

/-- The summary of a pool of ids of `bits` bits. -/
def idSummary {ρ : Type} (bits : UInt8) (p : Pool Int64 ρ) : Summary :=
  { entries := p.count
    claimed := (unionOf Order.int64 p.claims).text
    free := View.text ⟨p.free, .inside⟩
    freeIds := some (p.free, bits) }

/-- The spans of a set of addresses; a set without addresses shows as a pair of braces. -/
def spansText (s : AddressSet) : String :=
  if s.isEmpty then "\x7b\x7d" else ",".intercalate (s.map AddressSpan.text)

/-- The summary of a pool of addresses. -/
def addressSummary (p : AddressPool) : Except AddressPool.Error Summary := do
  let claimed ← (Address.toSet (unionOf Address.order p.pool.claims)).mapError .conversion
  let free ← p.free
  pure
    { entries := p.pool.count
      claimed := spansText claimed
      free := spansText free
      freeIds := none }

/-! ### Pools -/

/-- The number of bits of a VLAN id. -/
def vlanBits : UInt8 := 12

/-- The number of bits of a network id. -/
def vniBits : UInt8 := 24

/-- Creates a pool and enters its claims, up to the first that is refused. -/
def work {σ : Type} (lines : σ → List String) (summary : σ → Except Error Summary)
    (claim : σ → ClaimConfig → Attempt σ NotationError Unit) (created : Except NotationError σ)
    (claims : List ClaimConfig) : Outcome :=
  match created with
  | .error e => ⟨[], .error (.badText e)⟩
  | .ok p =>
    let a := Attempt.each claim p claims
    match a.answer with
    | .error e => ⟨lines a.state, .error (.badText e)⟩
    | .ok _ => ⟨lines a.state, summary a.state⟩

/-- Creates a configured pool and enters its claims. -/
def ofPool (c : PoolConfig) : Outcome :=
  let context := [("pool", c.name)]
  match PoolKind.ofText? c.kind with
  | none => ⟨[], .error (.unknownKind c.kind)⟩
  | some .int =>
    work (Pool.lines context) (fun p => .ok (numberSummary p))
      (fun p claim => NumberPool.claimText p claim.range claim.labels)
      (NumberPool.ofText c.name c.range) c.claims
  | some .vlan =>
    work (Pool.lines context) (fun p => .ok (idSummary vlanBits p))
      (fun p claim => VlanPool.claimText p claim.range claim.labels)
      (.ok VlanPool.initial) c.claims
  | some .vxlan =>
    work (Pool.lines context) (fun p => .ok (idSummary vniBits p))
      (fun p claim => VniPool.claimText p claim.range claim.labels)
      (VniPool.ofText c.range) c.claims
  | some .ip =>
    work (fun p => p.pool.lines context) (fun p => (addressSummary p).mapError .address)
      (fun p claim => p.claimText claim.range claim.labels)
      (AddressPool.ofText c.range) c.claims

/-- The lines that show a pool. -/
def summaryLines (c : PoolConfig) (s : Summary) : List String :=
  [c.name.toString ++ " (" ++ c.kind.toString ++ ") entries: " ++ Decimal.ofNat s.entries,
    "  claimed: " ++ s.claimed,
    "  free:    " ++ s.free]

/-- The line that shows free ids as blocks. -/
def blockLine (ids : IntervalSet Int64) (bits : UInt8) : Except Error String :=
  match IdBlock.ofView ⟨ids, .inside⟩ bits with
  | .ok blocks => .ok ("  free prefixes: " ++ ",".intercalate (blocks.map IdBlock.text))
  | .error e => .error (.blocks e)

end Report

/-! ### Configurations -/

/-- What was done with the pools of a configuration. -/
structure Report where
  /-- The lines that show the pools. -/
  output : List String
  /-- The lines of the pools' journals. -/
  journal : List String
  /-- The errors, each with the name of its pool. -/
  errors : List (Text × Report.Error)

namespace Report

/-- The report on one pool. -/
def single (c : PoolConfig) (withBlocks : Bool) : Report :=
  let o := ofPool c
  match o.summary with
  | .error e => ⟨[], o.journal, [(c.name, e)]⟩
  | .ok s =>
    let shown := summaryLines c s
    match s.freeIds with
    | none => ⟨shown, o.journal, []⟩
    | some (ids, bits) =>
      if !withBlocks then ⟨shown, o.journal, []⟩
      else
        match blockLine ids bits with
        | .ok line => ⟨shown ++ [line], o.journal, []⟩
        | .error e => ⟨shown, o.journal, [(c.name, e)]⟩

/-- The report on a configuration; `withBlocks` asks for the free ids as blocks. -/
def ofConfig (c : Config) (withBlocks : Bool) : Report :=
  let reports := c.pools.map fun p => single p withBlocks
  ⟨reports.flatMap output, reports.flatMap journal, reports.flatMap errors⟩

/-- The message of a report's errors, one line for each; there is none without errors. -/
def message? (r : Report) : Option String :=
  if r.errors.isEmpty then none
  else some ("\n".intercalate
    (r.errors.map fun e => "pool " ++ e.1.toString ++ ": " ++ e.2.message))

end Report

end Allotment
