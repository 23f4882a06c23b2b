import Allotment.Text.Glyph
import Allotment.Text.Printable

namespace Allotment.Text

/-!
# Quoted texts

A text is quoted so that every glyph of it can be seen on one line: printable characters stand for
themselves, the quote and the backslash are written after a backslash, the common controls have
letters, and everything else is a hexadecimal escape whose width depends on the code point.

* `quoted` — a text between double quotes;
* `quotedChar` — one character between single quotes.
-/

/-- The last `width` hexadecimal digits of a number, in lower case. -/
def hexDigits : Nat → Nat → List Char
  | 0, _ => []
  | width + 1, n => hexDigits width (n / 16) ++ [Nat.digitChar (n % 16)]

/-- The letter that stands for a common control character after a backslash. -/
def controlLetter (c : Char) : Option Char :=
  match c.toNat with
  | 7 => some 'a'
  | 8 => some 'b'
  | 9 => some 't'
  | 10 => some 'n'
  | 11 => some 'v'
  | 12 => some 'f'
  | 13 => some 'r'
  | _ => none

/-- The written form of a character inside the given quote. -/
def escapeChar (quote c : Char) : List Char :=
  if c == quote || c == '\\' then ['\\', c]
  else if isPrintable c then [c]
  else
    match controlLetter c with
    | some letter => ['\\', letter]
    | none =>
      if c.toNat < 0x80 then '\\' :: 'x' :: hexDigits 2 c.toNat
      else if c.toNat < 0x10000 then '\\' :: 'u' :: hexDigits 4 c.toNat
      else '\\' :: 'U' :: hexDigits 8 c.toNat

/-- The written form of a glyph inside double quotes. -/
def escapeGlyph : Glyph → List Char
  | .char c => escapeChar '"' c
  | .stray b => '\\' :: 'x' :: hexDigits 2 b.toNat

/-- A text between double quotes. -/
def quoted (t : Text) : String :=
  String.ofList ('"' :: t.flatMap escapeGlyph ++ ['"'])

/-- A string between double quotes. -/
def quotedString (s : String) : String :=
  quoted (ofString s)

/-- A character between single quotes. -/
def quotedChar (c : Char) : String :=
  String.ofList ('\'' :: escapeChar '\'' c ++ ['\''])

end Allotment.Text
