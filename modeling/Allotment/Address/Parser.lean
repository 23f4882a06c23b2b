import Allotment.Address.Basic
import Allotment.Text.Decimal

namespace Allotment.Address

/-!
# Reading addresses

`Address.parse` reads the two families by the first of the characters dot, colon and percent sign
that the text holds.  Octets are decimal without leading zeros.  Groups have one to four hexadecimal
digits; one double colon stands for at least one group of zeros, and the last two groups may be
written as four octets.  A zone may follow a percent sign.
-/

/-- What is wrong with the text of an address. -/
inductive Reason where
  | unrecognised
  | missingAddress
  | leadingZero
  | octetTooGreat
  | emptyOctet
  | tooManyOctets
  | unexpected
  | tooFewOctets
  | emptyZone
  | groupTooLong
  | emptyGroup
  | misplacedOctets
  | noRoomForOctets
  | colonExpected
  | danglingColon
  | secondEllipsis
  | trailing
  | tooFewGroups
  | idleEllipsis
deriving DecidableEq

/-- A reason in words. -/
def Reason.words : Reason → String
  | .unrecognised => "unable to parse IP"
  | .missingAddress => "missing IPv6 address"
  | .leadingZero => "IPv4 field has octet with leading zero"
  | .octetTooGreat => "IPv4 field has value >255"
  | .emptyOctet => "IPv4 field must have at least one digit"
  | .tooManyOctets => "IPv4 address too long"
  | .unexpected => "unexpected character"
  | .tooFewOctets => "IPv4 address too short"
  | .emptyZone => "zone must be a non-empty string"
  | .groupTooLong => "each group must have 4 or less digits"
  | .emptyGroup => "each colon-separated field must have at least one digit"
  | .misplacedOctets => "embedded IPv4 address must replace the final 2 fields of the address"
  | .noRoomForOctets => "too many hex fields to fit an embedded IPv4 at the end of the address"
  | .colonExpected => "unexpected character, want colon"
  | .danglingColon => "colon must be followed by more characters"
  | .secondEllipsis => "multiple :: in address"
  | .trailing => "trailing garbage after address"
  | .tooFewGroups => "address string too short"
  | .idleEllipsis => "the :: must expand to at least one field of zeros"

/-- A fault in the text of an address, with the rest of the text from where it was found. -/
structure Fault where
  reason : Reason
  rest : Text

/-- A text that is no address. -/
structure ParseError where
  text : Text
  fault : Fault

/-- The message of a reading error. -/
def ParseError.message (e : ParseError) : String :=
  "ParseAddr(" ++ e.text.quoted ++ "): " ++ e.fault.reason.words ++
    if e.fault.rest.isEmpty then "" else " (at " ++ e.fault.rest.quoted ++ ")"

/-! ### Octets -/

/-- Reads octets.  `octets` are those before the current one, whose value so far is `current`. -/
def readOctets (octets : List Nat) (current : Option Nat) : Text → Except Fault (List Nat)
  | [] =>
    if octets.length < 3 then .error ⟨.tooFewOctets, []⟩ else .ok (octets ++ [current.getD 0])
  | g :: t =>
    match Decimal.digit? g with
    | some d =>
      let value := current.getD 0 * 10 + d
      if current = some 0 then .error ⟨.leadingZero, []⟩
      else if 255 < value then .error ⟨.octetTooGreat, []⟩
      else readOctets octets (some value) t
    | none =>
      if g.is '.' then
        match current with
        | none => .error ⟨.emptyOctet, g :: t⟩
        | some value =>
          if t.isEmpty then .error ⟨.emptyOctet, g :: t⟩
          else if octets.length = 3 then .error ⟨.tooManyOctets, []⟩
          else readOctets (octets ++ [value]) none t
      else .error ⟨.unexpected, g :: t⟩

/-- The number whose digits to a base are given, the most significant first. -/
def ofDigits (base : Nat) (ds : List Nat) : Nat :=
  ds.foldl (fun n d => n * base + d) 0

/-- Reads four octets as a 32-bit address. -/
def parseV4 (t : Text) : Except Fault Address := do
  let os ← readOctets [] none t
  pure (.v4 (BitVec.ofNat 32 (ofDigits 256 os)))

/-! ### Groups -/

/-- The value of a hexadecimal digit. -/
def hexDigit? : Glyph → Option Nat
  | .char c =>
    if '0' ≤ c && c ≤ '9' then some (c.toNat - '0'.toNat)
    else if 'a' ≤ c && c ≤ 'f' then some (c.toNat - 'a'.toNat + 10)
    else if 'A' ≤ c && c ≤ 'F' then some (c.toNat - 'A'.toNat + 10)
    else none
  | .stray _ => none

/-- What has been read of a 128-bit address: its groups, the number of groups before the double
    colon, and the rest of the text. -/
structure GroupState where
  groups : List Nat
  ellipsis : Option Nat
  rest : Text

/-- Two groups from the four octets at the end of a text. -/
def readEmbedded (groups : List Nat) (ellipsis : Option Nat) (t : Text) : Except Fault GroupState :=
  if ellipsis.isNone && groups.length != 6 then .error ⟨.misplacedOctets, t⟩
  else if 6 < groups.length then .error ⟨.noRoomForOctets, t⟩
  else do
    match ← readOctets [] none t with
    | [a, b, c, d] => pure ⟨groups ++ [a * 256 + b, c * 256 + d], ellipsis, []⟩
    | _ => .error ⟨.tooFewOctets, []⟩

/-- Reads at most `n` further groups. -/
def readGroups : Nat → List Nat → Option Nat → Text → Except Fault GroupState
  | 0, groups, ellipsis, t => .ok ⟨groups, ellipsis, t⟩
  | n + 1, groups, ellipsis, t =>
    let digits := (t.takeWhile fun g => (hexDigit? g).isSome).filterMap hexDigit?
    let rest := t.drop digits.length
    if 4 < digits.length then .error ⟨.groupTooLong, t⟩
    else if digits.isEmpty then .error ⟨.emptyGroup, t⟩
    else
      let groups' := groups ++ [ofDigits 16 digits]
      match rest with
      | [] => .ok ⟨groups', ellipsis, []⟩
      | [g] =>
        if g.is '.' then readEmbedded groups ellipsis t
        else .error ⟨if g.is ':' then .danglingColon else .colonExpected, rest⟩
      | g :: g' :: t' =>
        if g.is '.' then readEmbedded groups ellipsis t
        else if !g.is ':' then .error ⟨.colonExpected, rest⟩
        else if !g'.is ':' then readGroups n groups' ellipsis (g' :: t')
        else if ellipsis.isSome then .error ⟨.secondEllipsis, g' :: t'⟩
        else if t'.isEmpty then .ok ⟨groups', some groups'.length, []⟩
        else readGroups n groups' (some groups'.length) t'

/-- The eight groups that were read, with zeros where the double colon stands. -/
def GroupState.complete (s : GroupState) : Except Fault (List Nat) :=
  if !s.rest.isEmpty then .error ⟨.trailing, s.rest⟩
  else
    match s.ellipsis with
    | none => if s.groups.length < 8 then .error ⟨.tooFewGroups, []⟩ else .ok s.groups
    | some i =>
      if s.groups.length < 8 then
        .ok (s.groups.take i ++ List.replicate (8 - s.groups.length) 0 ++ s.groups.drop i)
      else .error ⟨.idleEllipsis, []⟩

/-- Reads the groups of a 128-bit address. -/
def parseGroups (t : Text) : Except Fault (List Nat) :=
  match t with
  | .char ':' :: .char ':' :: t =>
    if t.isEmpty then .ok (List.replicate 8 0)
    else (readGroups 8 [] (some 0) t).bind GroupState.complete
  | t => (readGroups 8 [] none t).bind GroupState.complete

/-- Reads a 128-bit address with its zone. -/
def parseV6 (t : Text) : Except Fault Address := do
  let (body, zone) ← match Text.cutAt [.char '%'] t with
    | none => .ok (t, [])
    | some (_, []) => .error ⟨.emptyZone, []⟩
    | some (body, zone) => .ok (body, zone)
  let gs ← parseGroups body
  pure (.v6 (BitVec.ofNat 128 (ofDigits 0x10000 gs)) (Text.toString zone))

/-- Reads an address. -/
def parse (t : Text) : Except ParseError Address :=
  let read := match t.find? fun g => g.is '.' || g.is ':' || g.is '%' with
    | some (.char '.') => parseV4 t
    | some (.char ':') => parseV6 t
    | some _ => .error ⟨.missingAddress, []⟩
    | none => .error ⟨.unrecognised, []⟩
  read.mapError fun fault => ⟨t, fault⟩

end Allotment.Address
