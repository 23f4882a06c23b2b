import Allotment.Domain

namespace Allotment

/-!
# Network addresses

An address is a 32-bit number, or a 128-bit number with an optional zone, or unset.  Addresses are
ordered by their width, then by number, then by zone, so the whole of the 32-bit family comes before
the 128-bit family.

* `Address.order` — the order of the addresses;
* `Address.next?`, `Address.previous?` — the neighbours of an address; the 128-bit family follows on
  the 32-bit one;
* `Address.domain` — the addresses as a discrete domain.
-/

/-- An address of one of the two families, or none. -/
inductive Address where
  | unset
  | v4 (bits : BitVec 32)
  | v6 (bits : BitVec 128) (zone : String)
deriving DecidableEq

namespace Address

/-- The last 32-bit address. -/
def lastV4 : Address :=
  .v4 (BitVec.allOnes 32)

/-- The first 32-bit address. -/
def firstV4 : Address :=
  .v4 0

/-- The last 128-bit address. -/
def lastV6 : Address :=
  .v6 (BitVec.allOnes 128) ""

/-- The first 128-bit address. -/
def firstV6 : Address :=
  .v6 0 ""

/-- Whether an address is set. -/
def isValid : Address → Bool
  | .unset => false
  | _ => true

/-- Whether an address belongs to the 32-bit family. -/
def isV4 : Address → Bool
  | .v4 _ => true
  | _ => false

/-- The number of bits of an address; an unset one has none. -/
def width : Address → Nat
  | .unset => 0
  | .v4 _ => 32
  | .v6 _ _ => 128

/-- The number of an address. -/
def number : Address → Nat
  | .unset => 0
  | .v4 b => b.toNat
  | .v6 b _ => b.toNat

/-- The zone of an address. -/
def zone : Address → String
  | .v6 _ z => z
  | _ => ""

/-- The address without its zone. -/
def withoutZone : Address → Address
  | .v6 b _ => .v6 b ""
  | a => a

/-- Addresses by width, then by number, then by zone. -/
def order (a b : Address) : Ordering :=
  (compare a.width b.width).then ((compare a.number b.number).then (compare a.zone b.zone))

/-- Whether one address is before another. -/
def lt (a b : Address) : Bool :=
  (order a b).isLT

/-- Whether one address is at or before another. -/
def le (a b : Address) : Bool :=
  (order a b).isLE

/-- The next address of the same family and zone. -/
def sibling? : Address → Option Address
  | .unset => none
  | .v4 b => if b = BitVec.allOnes 32 then none else some (.v4 (b + 1))
  | .v6 b z => if b = BitVec.allOnes 128 then none else some (.v6 (b + 1) z)

/-- The address after an address.  After the last 32-bit address comes the first 128-bit one. -/
def next? (a : Address) : Option Address :=
  if a = lastV4 then some firstV6 else a.sibling?

/-- The address before an address.  Before the first 128-bit address comes the last 32-bit one. -/
def previous? (a : Address) : Option Address :=
  if a = firstV6 then some lastV4
  else
    match a with
    | .unset => none
    | .v4 b => if b = 0 then none else some (.v4 (b - 1))
    | .v6 b z => if b = 0 then none else some (.v6 (b - 1) z)

/-- The addresses, each followed by the next one. -/
def domain : Domain Address :=
  ⟨next?, Nat.pow 2 129⟩

end Address

end Allotment
