import Allotment.Text.Decimal

namespace Allotment.Numeral

/-!
# Numerals in a written base

Whole numbers whose text names their base: `0x` starts a hexadecimal, `0o` or a plain leading zero
an octal and `0b` a binary numeral, and any other numeral is decimal.  Underscores may separate the
digits from each other and from the base.

* `readNat` — reads a natural number up to a bound;
* `readInt` — reads a signed 64-bit word, after an optional sign.
-/

/-- The value of a digit or letter. -/
def digit? : Glyph → Option Nat
  | .char c =>
    if '0' ≤ c && c ≤ '9' then some (c.toNat - '0'.toNat)
    else if 'a' ≤ c.toLower && c.toLower ≤ 'z' then some (c.toLower.toNat - 'a'.toNat + 10)
    else none
  | .stray _ => none

/-- The base that a letter after a zero stands for. -/
def letterBase? : Glyph → Option Nat
  | .char 'b' | .char 'B' => some 2
  | .char 'o' | .char 'O' => some 8
  | .char 'x' | .char 'X' => some 16
  | _ => none

/-- The base of a numeral, and its digits. -/
def splitBase : Text → Nat × Text
  | .char '0' :: g :: h :: t =>
    match letterBase? g with
    | some base => (base, h :: t)
    | none => (8, g :: h :: t)
  | .char '0' :: t => (8, t)
  | t => (10, t)

/-- Reads on from the number `acc`, which may not pass `bound`; underscores are passed over. -/
def readDigits (base bound : Nat) : Nat → Text → Except Decimal.Fault Nat
  | acc, [] => .ok acc
  | acc, .char '_' :: t => readDigits base bound acc t
  | acc, g :: t =>
    match digit? g with
    | none => .error .malformed
    | some d =>
      if base ≤ d then .error .malformed
      else if acc * base + d ≤ bound then readDigits base bound (acc * base + d) t
      else .error .outOfRange

/-- Whether each underscore stands between two other glyphs; `afterOther` says what stands before
    the text. -/
def separates : Bool → Text → Bool
  | afterOther, [] => afterOther
  | afterOther, .char '_' :: t => afterOther && separates false t
  | _, _ :: t => separates true t

/-- Whether the underscores of a numeral separate its digits; the letter of a base counts as a
    digit. -/
def hasGoodSeparators (t : Text) : Bool :=
  !t.contains (.char '_') || separates false t

/-- Reads a natural number that is at most `bound`. -/
def readNat (bound : Nat) (t : Text) : Except Decimal.Fault Nat := do
  if t.isEmpty then throw .malformed
  let (base, digits) := splitBase t
  let n ← readDigits base bound 0 digits
  if hasGoodSeparators t then pure n else throw .malformed

/-- Reads an unsigned number as the magnitude of a signed 64-bit word. -/
def readMagnitude (negative : Bool) (t : Text) : Except Decimal.Fault Int64 := do
  let n ← readNat Decimal.maxWord t
  if negative then
    if n ≤ Decimal.signLimit then pure (Int64.ofInt (-n)) else throw .outOfRange
  else
    if n < Decimal.signLimit then pure (Int64.ofInt n) else throw .outOfRange

/-- Reads a signed 64-bit word. -/
def readInt : Text → Except Decimal.Fault Int64
  | .char '-' :: t => readMagnitude true t
  | .char '+' :: t => readMagnitude false t
  | t => readMagnitude false t

end Allotment.Numeral
