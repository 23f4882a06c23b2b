import Allotment.Text.Glyph

namespace Allotment.Utf8

/-!
# Bytes as text

`Utf8.decode` reads bytes as UTF-8.  A byte that starts no well-formed character is stray.
-/

/-- The number of bytes of the character that starts with a byte. -/
def width? (b : UInt8) : Option Nat :=
  if b < 0x80 then some 1
  else if b < 0xc0 then none
  else if b < 0xe0 then some 2
  else if b < 0xf0 then some 3
  else if b < 0xf8 then some 4
  else none

/-- The character that the first bytes of a list are the encoding of, and their number. -/
def firstChar? (bytes : List UInt8) : Option (Char × Nat) := do
  let lead ← bytes.head?
  let width ← width? lead
  let s ← String.fromUTF8? ⟨(bytes.take width).toArray⟩
  let c ← s.toList.head?
  pure (c, width)

/-- Reads bytes as UTF-8.  The first `skipped` bytes belong to a character that was read before. -/
def decodeFrom (skipped : Nat) : List UInt8 → Text
  | [] => []
  | b :: bytes =>
    match skipped, firstChar? (b :: bytes) with
    | n + 1, _ => decodeFrom n bytes
    | 0, some (c, width) => .char c :: decodeFrom (width - 1) bytes
    | 0, none => .stray b :: decodeFrom 0 bytes

/-- Reads bytes as UTF-8. -/
def decode (bytes : List UInt8) : Text :=
  decodeFrom 0 bytes

end Allotment.Utf8
