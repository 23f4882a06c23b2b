import Allotment.Address.Parser
import Allotment.Address.Printer
import Allotment.Dyadic

namespace Allotment

/-!
# Address spans, networks and address sets

* `AddressSpan` — the addresses from a first to a last one, both included and of one family, without
  zones;
* `Network` — the addresses that share a number of leading bits, written `address/bits`;
* `AddressSet` — spans in increasing order, of which no two touch.  Spans of different families
  never touch.
-/

/-! ### Spans -/

/-- The addresses from `first` to `last`. -/
structure AddressSpan where
  first : Address
  last : Address
deriving DecidableEq

namespace AddressSpan

/-- The span between two addresses, whose zones are dropped. -/
def between (a b : Address) : AddressSpan :=
  ⟨a.withoutZone, b.withoutZone⟩

/-- A span is valid when its ends are set, of one family and in order. -/
def isValid (s : AddressSpan) : Bool :=
  s.first.isValid && s.last.isValid && s.first.width == s.last.width && s.first.le s.last

/-- Whether a span contains an address; none contains an address with a zone. -/
def contains (s : AddressSpan) (a : Address) : Bool :=
  s.isValid && a.zone.isEmpty && s.first.le a && a.le s.last

/-- The text of a span. -/
def text (s : AddressSpan) : String :=
  if s.isValid then s.first.text ++ "-" ++ s.last.text
  else if !s.first.isValid || !s.last.isValid then "zero IPRange"
  else "invalid IPRange"

/-- Why a text is not a span. -/
inductive ParseError where
  | noHyphen (text : Text)
  | badFirst (part text : Text)
  | badLast (part text : Text)
  | notValid (s : AddressSpan)

/-- The message of a reading error. -/
def ParseError.message : ParseError → String
  | .noHyphen t => "no hyphen in range " ++ t.quoted
  | .badFirst p t => "invalid From IP " ++ p.quoted ++ " in range " ++ t.quoted
  | .badLast p t => "invalid To IP " ++ p.quoted ++ " in range " ++ t.quoted
  | .notValid s => "range " ++ s.first.text ++ " to " ++ s.last.text ++ " not valid"

/-- Reads two addresses around the first hyphen. -/
def parse (t : Text) : Except ParseError AddressSpan := do
  match Text.cutAt [.char '-'] t with
  | none => throw (.noHyphen t)
  | some (front, back) =>
    let a ← (Address.parse front).mapError fun _ => .badFirst front t
    let b ← (Address.parse back).mapError fun _ => .badLast back t
    let s := between a b
    if s.isValid then pure s else throw (.notValid s)

end AddressSpan

/-! ### Networks -/

/-- The address of a network and the number of its leading bits that count. -/
structure Network where
  address : Address
  bits : Nat
deriving DecidableEq

namespace Network

/-- The network of an address, whose zone is dropped.  There is none of an unset address, or with
    more bits than the address has. -/
def make? (a : Address) (bits : Int) : Option Network :=
  if a.isValid && 0 ≤ bits && bits ≤ a.width then some ⟨a.withoutZone, bits.toNat⟩ else none

/-- The address with a number in the family of `a`. -/
def sameFamily (a : Address) (n : Nat) : Address :=
  match a with
  | .unset => .unset
  | .v4 _ => .v4 (BitVec.ofNat 32 n)
  | .v6 _ _ => .v6 (BitVec.ofNat 128 n) ""

/-- The number of addresses of a network. -/
def size (p : Network) : Nat :=
  Dyadic.size (p.address.width - p.bits)

/-- The addresses of a network: those that share its leading bits. -/
def span (p : Network) : AddressSpan :=
  let first := p.address.number - p.address.number % p.size
  ⟨sameFamily p.address first, sameFamily p.address (first + p.size - 1)⟩

/-- The text of a network. -/
def text (p : Network) : String :=
  p.address.text ++ "/" ++ Decimal.ofNat p.bits

/-- What is wrong with the text of a network. -/
inductive Reason where
  | noSlash
  | badAddress (e : Address.ParseError)
  | hasZone
  | badBits (part : Text)
  | tooManyBits

/-- A reason in words. -/
def Reason.words : Reason → String
  | .noSlash => "no '/'"
  | .badAddress e => e.message
  | .hasZone => "IPv6 zones cannot be present in a prefix"
  | .badBits p => "bad bits after slash: " ++ p.quoted
  | .tooManyBits => "prefix length out of range"

/-- A text that is no network. -/
structure ParseError where
  text : Text
  reason : Reason

/-- The message of a reading error. -/
def ParseError.message (e : ParseError) : String :=
  "netip.ParsePrefix(" ++ e.text.quoted ++ "): " ++ e.reason.words

/-- Reads the number of bits: digits without a sign or a leading zero. -/
def readBits (part : Text) : Except Reason Nat :=
  let canonical := part.length ≤ 1 || (part.head?.bind Decimal.digit?).any (0 < ·)
  if !canonical then .error (.badBits part)
  else (Decimal.readNat (Decimal.signLimit - 1) part).mapError fun _ => .badBits part

/-- Reads an address and a number of bits around the last slash. -/
def parse (t : Text) : Except ParseError Network :=
  let read : Except Reason Network := do
    match Text.cutAtLast '/' t with
    | none => throw .noSlash
    | some (front, back) =>
      let a ← (Address.parse front).mapError .badAddress
      if !a.zone.isEmpty then throw .hasZone
      let bits ← readBits back
      if a.width < bits then throw .tooManyBits
      pure ⟨a, bits⟩
  read.mapError fun reason => ⟨t, reason⟩

end Network

/-! ### Sets of addresses -/

/-- Spans in increasing order, of which no two touch. -/
abbrev AddressSet := List AddressSpan

namespace AddressSet

/-- Whether all addresses of one span are before those of another and do not touch them. -/
def isApart (s t : AddressSpan) : Bool :=
  s.last.lt t.first && s.last.sibling? != some t.first

/-- The least span around two of one family. -/
def hull (s t : AddressSpan) : AddressSpan :=
  ⟨if t.first.lt s.first then t.first else s.first, if s.last.lt t.last then t.last else s.last⟩

/-- Adds the addresses of a span, joining the spans that it touches. -/
def insert (s : AddressSpan) : AddressSet → AddressSet
  | [] => [s]
  | t :: ts =>
    if isApart t s then t :: insert s ts
    else if isApart s t then s :: t :: ts
    else insert (hull t s) ts

/-- What is left of the span `t` without the addresses of `s`. -/
def without (s t : AddressSpan) : List AddressSpan :=
  if t.last.lt s.first || s.last.lt t.first then [t]
  else
    (if t.first.lt s.first then (s.first.previous?.map fun a => ⟨t.first, a⟩).toList else []) ++
      if s.last.lt t.last then (s.last.next?.map fun a => ⟨a, t.last⟩).toList else []

/-- Takes the addresses of a span away. -/
def erase (s : AddressSpan) (ts : AddressSet) : AddressSet :=
  ts.flatMap (without s)

/-- The addresses of all given spans. -/
def ofSpans (ss : List AddressSpan) : AddressSet :=
  ss.foldl (fun ts s => insert s ts) []

/-- The networks that make up a span. -/
def networksOf (s : AddressSpan) : List Network :=
  (Dyadic.cover s.first.width s.first.number s.last.number).map fun b =>
    ⟨Network.sameFamily s.first b.start, s.first.width - b.hostBits⟩

/-- The networks that make up a set of addresses. -/
def networks (ts : AddressSet) : List Network :=
  ts.flatMap networksOf

end AddressSet

end Allotment
