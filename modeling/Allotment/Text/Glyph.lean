namespace Allotment

/-!
# Texts

A text is read from outside and cut at byte positions, so it can hold bytes that belong to no
character.  `Text` is therefore a list of glyphs, each a character or one stray byte:

* `Text.ofString` / `Text.toString` — texts of plain strings, and the string a text shows as;
* `Text.byteLength`, `Text.dropByte` — the length in UTF-8 bytes, and the text without its first
  byte;
* `Text.cutAt` — the parts before and after the first occurrence of a separator;
* `Text.matchesWord` — equality with an ASCII word up to letter case.
-/

/-- One element of a text: a character, or a byte that belongs to no character. -/
inductive Glyph where
  | char (c : Char)
  | stray (b : UInt8)
deriving DecidableEq

/-- A text, glyph by glyph. -/
abbrev Text := List Glyph

namespace Glyph

/-- The number of bytes that a glyph takes in UTF-8. -/
def byteLength : Glyph → Nat
  | .char c => c.utf8Size
  | .stray _ => 1

/-- The bytes of a glyph in UTF-8. -/
def bytes : Glyph → List UInt8
  | .char c => String.utf8EncodeChar c
  | .stray b => [b]

/-- The character that stands for a glyph where only characters can be shown. -/
def toChar : Glyph → Char
  | .char c => c
  | .stray _ => '\ufffd'

/-- The first byte of a glyph, taken as a code point. -/
def leadChar : Glyph → Char
  | .char c => Char.ofNat ((String.utf8EncodeChar c).headD 0).toNat
  | .stray b => Char.ofNat b.toNat

/-- What is left of a glyph without its first byte. -/
def dropByte : Glyph → List Glyph
  | .char c => ((String.utf8EncodeChar c).drop 1).map .stray
  | .stray _ => []

/-- Whether a glyph is the character `c`. -/
def is (c : Char) (g : Glyph) : Bool :=
  g == .char c

end Glyph

namespace Text

/-- The text of a string. -/
def ofString (s : String) : Text :=
  s.toList.map .char

/-- The string that a text shows as; a stray byte shows as the replacement character. -/
def toString (t : Text) : String :=
  String.ofList (t.map Glyph.toChar)

/-- The length of a text in UTF-8 bytes. -/
def byteLength (t : Text) : Nat :=
  t.foldr (fun g n => g.byteLength + n) 0

/-- The bytes of a text. -/
def bytes (t : Text) : List UInt8 :=
  t.flatMap Glyph.bytes

/-- Compares two texts byte by byte. -/
def compareBytes (s t : Text) : Ordering :=
  compareOfLessAndEq s.bytes t.bytes

/-- A text without its first byte.  Cutting into a character leaves its other bytes stray. -/
def dropByte : Text → Text
  | [] => []
  | g :: t => g.dropByte ++ t

/-- The longest leading part of a text that fits into `n` bytes.  Cutting into a character leaves
    its leading bytes stray. -/
def takeBytes : Nat → Text → Text
  | _, [] => []
  | n, g :: t =>
    if g.byteLength ≤ n then g :: takeBytes (n - g.byteLength) t
    else
      match g with
      | .char c => ((String.utf8EncodeChar c).take n).map .stray
      | .stray _ => []

/-- The parts of a text before and after the first occurrence of a separator. -/
def cutAt (separator : Text) : Text → Option (Text × Text)
  | [] => if separator.isEmpty then some ([], []) else none
  | g :: t =>
    if separator.isPrefixOf (g :: t) then some ([], (g :: t).drop separator.length)
    else (cutAt separator t).map fun (front, back) => (g :: front, back)

/-- The parts of a text before and after the last occurrence of a character. -/
def cutAtLast (c : Char) (t : Text) : Option (Text × Text) :=
  (cutAt [.char c] t.reverse).map fun (back, front) => (front.reverse, back.reverse)

/-- The lower-case ASCII letter to which a character folds, or the character itself.  Besides the
    capital letters, the long s and the Kelvin sign fold to ASCII letters. -/
def foldCase (c : Char) : Char :=
  if c == '\u017f' then 's' else if c == '\u212a' then 'k' else c.toLower

/-- Whether a text is a given word up to letter case; the word is written in lower-case letters. -/
def matchesWord (word : String) (t : Text) : Bool :=
  t.map (fun g => match g with | .char c => Glyph.char (foldCase c) | g => g) == ofString word

end Text

end Allotment
