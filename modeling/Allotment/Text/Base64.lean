namespace Allotment.Base64

/-!
# Bytes in base 64

Three bytes are written as four digits of six bits.  When one or two bytes are left over, equals
signs take the place of the missing digits.  Line ends between the digits do not count.
-/

/-- The value of a digit: the capital letters, the small letters, the decimal digits, plus and
    slash. -/
def digit? (c : Char) : Option Nat :=
  if 'A' ≤ c && c ≤ 'Z' then some (c.toNat - 'A'.toNat)
  else if 'a' ≤ c && c ≤ 'z' then some (c.toNat - 'a'.toNat + 26)
  else if '0' ≤ c && c ≤ '9' then some (c.toNat - '0'.toNat + 52)
  else if c == '+' then some 62
  else if c == '/' then some 63
  else none

/-- The first `n` bytes of a number of three bytes. -/
def firstBytes (n word : Nat) : List UInt8 :=
  [(word / 65536).toUInt8, (word / 256).toUInt8, word.toUInt8].take n

/-- The number that four digits are written for. -/
def word? (a b c d : Char) : Option Nat := do
  pure (((← digit? a) * 64 + (← digit? b)) * 4096 + (← digit? c) * 64 + (← digit? d))

/-- Reads the bytes that digits are written for. -/
def decodeDigits? : List Char → Option (List UInt8)
  | [] => some []
  | [a, b, '=', '='] => (word? a b 'A' 'A').map (firstBytes 1)
  | [a, b, c, '='] => (word? a b c 'A').map (firstBytes 2)
  | a :: b :: c :: d :: t => do
    let word ← word? a b c d
    pure (firstBytes 3 word ++ (← decodeDigits? t))
  | _ => none

/-- Reads the bytes that a text in base 64 is written for. -/
def decode? (cs : List Char) : Option (List UInt8) :=
  decodeDigits? (cs.filter fun c => c != '\n' && c != '\r')

end Allotment.Base64
