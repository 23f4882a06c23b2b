import Allotment.Text.Quoted

namespace Allotment.Decimal

/-!
# Decimal numbers

Whole numbers in decimal notation, as signed 64-bit words and as bounded natural numbers.

* `ofInt` — the digits of a number, after a minus sign when it is negative;
* `readInt` — reads a signed 64-bit word: an optional sign and at least one digit;
* `readNat` — reads a natural number up to a bound: at least one digit, no sign.

Reading goes from left to right.  A glyph that is no digit makes the text malformed; digits whose
number passes the limit of an unsigned word end the reading at once, whatever follows them.
-/

/-- Why a text is not a number. -/
inductive Fault where
  | malformed
  | outOfRange
deriving DecidableEq

/-- The digits of a natural number. -/
def ofNat (n : Nat) : String :=
  String.ofList (Nat.toDigits 10 n)

/-- The decimal notation of an integer. -/
def ofInt : Int → String
  | .ofNat n => ofNat n
  | .negSucc n => "-" ++ ofNat (n + 1)

/-- The value of a decimal digit. -/
def digit? : Glyph → Option Nat
  | .char c => if '0' ≤ c && c ≤ '9' then some (c.toNat - '0'.toNat) else none
  | .stray _ => none

/-- Reads on from the number `acc`, which may not pass `bound`. -/
def readDigits (bound : Nat) : Nat → Text → Except Fault Nat
  | acc, [] => .ok acc
  | acc, g :: t =>
    match digit? g with
    | none => .error .malformed
    | some d => if acc * 10 + d ≤ bound then readDigits bound (acc * 10 + d) t
        else .error .outOfRange

/-- Reads a natural number that is at most `bound`. -/
def readNat (bound : Nat) (t : Text) : Except Fault Nat :=
  if t.isEmpty then .error .malformed else readDigits bound 0 t

/-- The greatest unsigned 64-bit word. -/
def maxWord : Nat := 0xffffffffffffffff

/-- The number of the negative 64-bit words: `2 ^ 63`. -/
def signLimit : Nat := 0x8000000000000000

/-- Reads an unsigned number as the magnitude of a signed 64-bit word. -/
def readMagnitude (negative : Bool) (t : Text) : Except Fault Int64 := do
  let n ← readNat maxWord t
  if negative then
    if n ≤ signLimit then .ok (Int64.ofInt (-n)) else .error .outOfRange
  else
    if n < signLimit then .ok (Int64.ofInt n) else .error .outOfRange

/-- Reads a signed 64-bit word. -/
def readInt : Text → Except Fault Int64
  | .char '-' :: t => readMagnitude true t
  | .char '+' :: t => readMagnitude false t
  | t => readMagnitude false t

/-- What is wrong with a number, in words. -/
def Fault.reason : Fault → String
  | .malformed => "invalid syntax"
  | .outOfRange => "value out of range"

/-- The text that could not be read as a signed number, with the reason. -/
structure Error where
  text : Text
  fault : Fault

/-- The message of a reading error. -/
def Error.message (e : Error) : String :=
  "strconv.ParseInt: parsing " ++ e.text.quoted ++ ": " ++ e.fault.reason

/-- Reads a signed 64-bit word, keeping the text with the reason when it is none. -/
def parseInt (t : Text) : Except Error Int64 :=
  match readInt t with
  | .ok v => .ok v
  | .error fault => .error ⟨t, fault⟩

end Allotment.Decimal
