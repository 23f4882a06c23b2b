import Allotment.Labels

namespace Allotment

/-!
# Pool configurations

A configuration lists pools by name, each with its kind, its range and the claims to enter.  The
texts of a configuration are kept as they are written; `Config.problems` tells what is missing in
it.
-/

/-- The kinds of pools. -/
inductive PoolKind where
  | int
  | vlan
  | vxlan
  | ip
deriving DecidableEq

namespace PoolKind

/-- The word for a kind. -/
def word : PoolKind → String
  | .int => "int"
  | .vlan => "vlan"
  | .vxlan => "vxlan"
  | .ip => "ip"

/-- The kind that a text names. -/
def ofText? (t : Text) : Option PoolKind :=
  [.int, .vlan, .vxlan, .ip].find? fun kind => Text.ofString kind.word == t

/-- Whether a pool of the kind is given by a range; the VLAN ids are always the same. -/
def needsRange : PoolKind → Bool
  | .vlan => false
  | _ => true

end PoolKind

/-- A claim to enter. -/
structure ClaimConfig where
  range : Text
  labels : Labels

/-- A pool to create. -/
structure PoolConfig where
  name : Text
  kind : Text
  range : Text
  claims : List ClaimConfig

/-- The pools to create. -/
structure Config where
  pools : List PoolConfig

namespace Config

/-- What is wrong with one pool of a configuration. -/
inductive Problem where
  | missingName (index : Nat)
  | duplicateName (name : Text)
  | missingRange (name : Text)
  | unknownKind (name kind : Text)

/-- The message of a problem. -/
def Problem.message : Problem → String
  | .missingName i => "pool " ++ Decimal.ofNat i ++ ": missing name"
  | .duplicateName n => "pool " ++ n.toString ++ ": duplicate name"
  | .missingRange n => "pool " ++ n.toString ++ ": missing range"
  | .unknownKind n k => "pool " ++ n.toString ++ ": unknown kind " ++ k.quoted

/-- What is wrong with the pool at a position, given the names before it. -/
def problemsOf (index : Nat) (names : List Text) (p : PoolConfig) : List Problem :=
  (if p.name.isEmpty then [.missingName index] else []) ++
    (if names.contains p.name then [.duplicateName p.name] else []) ++
    match PoolKind.ofText? p.kind with
    | none => [.unknownKind p.name p.kind]
    | some k => if k.needsRange && p.range.isEmpty then [.missingRange p.name] else []

/-- What is wrong with pools that come after others. -/
def problemsFrom (index : Nat) (names : List Text) : List PoolConfig → List Problem
  | [] => []
  | p :: ps => problemsOf index names p ++ problemsFrom (index + 1) (p.name :: names) ps

/-- What is wrong with a configuration, pool by pool. -/
def problems (c : Config) : List Problem :=
  problemsFrom 0 [] c.pools

end Config

end Allotment
