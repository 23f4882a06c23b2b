import Allotment.Address.Basic

namespace Allotment.Address

/-!
# Writing addresses

A 32-bit address is written as four decimal octets.  A 128-bit address is written as eight groups in
lower-case hexadecimal; the longest run of at least two zero groups, the leftmost of several,
becomes a double colon.  A 128-bit address that embeds a 32-bit one ends in its four octets.  A zone
follows a percent sign.
-/

/-- The four octets of a 32-bit number. -/
def octets (n : Nat) : List Nat :=
  [(n >>> 24) % 256, (n >>> 16) % 256, (n >>> 8) % 256, n % 256]

/-- Four decimal octets. -/
def dotted (n : Nat) : String :=
  ".".intercalate ((octets n).map Decimal.ofNat)

/-- The eight 16-bit groups of a 128-bit number. -/
def groups (n : Nat) : List Nat :=
  (List.range 8).map fun i => (n >>> (16 * (7 - i))) % 0x10000

/-- The number of zeros at the front of a list. -/
def zerosAtFront (l : List Nat) : Nat :=
  (l.takeWhile (· == 0)).length

/-- The start and the length of the leftmost longest run of at least two zeros. -/
def longestZeroRun (l : List Nat) : Nat × Nat :=
  (List.range l.length).foldl
    (fun best i =>
      let n := zerosAtFront (l.drop i)
      if 2 ≤ n && best.2 < n then (i, n) else best)
    (0, 0)

/-- Groups in hexadecimal, with colons between. -/
def colons (l : List Nat) : String :=
  ":".intercalate (l.map fun g => String.ofList (Nat.toDigits 16 g))

/-- A 128-bit number in groups. -/
def grouped (n : Nat) : String :=
  let gs := groups n
  match longestZeroRun gs with
  | (_, 0) => colons gs
  | (start, length) => colons (gs.take start) ++ "::" ++ colons (gs.drop (start + length))

/-- The zone of an address behind a percent sign. -/
def zoneText (zone : String) : String :=
  if zone.isEmpty then "" else "%" ++ zone

/-- Whether a 128-bit number embeds a 32-bit address. -/
def embedsV4 (n : Nat) : Bool :=
  n >>> 32 == 0xffff

/-- The text of an address. -/
def text : Address → String
  | .unset => "invalid IP"
  | .v4 b => dotted b.toNat
  | .v6 b z =>
    let body :=
      if embedsV4 b.toNat then "::ffff:" ++ dotted (b.toNat % 0x100000000) else grouped b.toNat
    body ++ zoneText z

/-- An address shows as its text. -/
instance : Display Address where
  display := text

end Allotment.Address
