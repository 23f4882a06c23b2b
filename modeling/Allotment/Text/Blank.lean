import Allotment.Text.Glyph

namespace Allotment.Text

/-!
# Blank characters

`isBlank` is the Unicode property of white space; `trim` takes blanks off both ends of a text.
-/

/-- Whether a character is white space: the controls from tab to carriage return, the spaces, and
    the line and paragraph separators. -/
def isBlank (c : Char) : Bool :=
  let n := c.toNat
  (0x09 ≤ n && n ≤ 0x0d) || n == 0x20 || n == 0x85 || n == 0xa0 || n == 0x1680 ||
    (0x2000 ≤ n && n ≤ 0x200a) || n == 0x2028 || n == 0x2029 || n == 0x202f || n == 0x205f ||
    n == 0x3000

/-- Whether a glyph is a blank character. -/
def isBlankGlyph : Glyph → Bool
  | .char c => isBlank c
  | .stray _ => false

/-- A text without the blanks at its front. -/
def trimFront (t : Text) : Text :=
  t.dropWhile isBlankGlyph

/-- A text without the blanks at its back. -/
def trimBack (t : Text) : Text :=
  (t.reverse.dropWhile isBlankGlyph).reverse

/-- A text without the blanks at its ends. -/
def trim (t : Text) : Text :=
  trimBack (trimFront t)

end Allotment.Text
