import Allotment.Yaml.Problem

namespace Allotment.Yaml

/-!
# The window on a document

A document is decoded in portions.  A character that may not stand in a document is noticed when its
portion is decoded, which may be long before it is reached.

* `isBlank`, `isBreak`, `endsLine`, `endsWord` — kinds of characters;
* `Window` — the characters that are decoded and not yet passed, and the portions after them;
* `Window.refill` — decodes portions until enough characters can be seen.

The end of a document is seen as a NUL character, which cannot stand in it.
-/

/-! ### Characters -/

/-- What is seen at the end of a document. -/
def ending : Char := '\x00'

/-- What may stand in front of a document, and tells how it is encoded. -/
def byteOrderMark : Char := '\ufeff'

/-- Whether a character is a space or a tab. -/
def isBlank (c : Char) : Bool :=
  c == ' ' || c == '\t'

/-- Whether a character is a line end of more than one byte. -/
def isWideBreak (c : Char) : Bool :=
  c == '\x85' || c == '\u2028' || c == '\u2029'

/-- Whether a character ends a line. -/
def isBreak (c : Char) : Bool :=
  c == '\n' || c == '\r' || isWideBreak c

/-- Whether a line ends at a character, also as the last one. -/
def endsLine (c : Char) : Bool :=
  isBreak c || c == ending

/-- Whether a character is a blank or ends a line. -/
def endsWord (c : Char) : Bool :=
  isBlank c || endsLine c

/-- Whether a character may stand in a name. -/
def isNameChar (c : Char) : Bool :=
  c.isAlphanum || c == '_' || c == '-'

/-- Whether a character may stand in a document. -/
def isAllowed (c : Char) : Bool :=
  c == '\t' || c == '\n' || c == '\r' || (' ' ≤ c && c ≤ '~') || c == '\x85' ||
    ('\xa0' ≤ c && c ≤ '\ufffd') || 0x10000 ≤ c.toNat

/-! ### Portions -/

/-- The number of bytes of a document that are decoded at once. -/
def portionSize : Nat := 512

/-- The portions of a text, up to the first character that may not stand in a document, and whether
    there is no such character.  `part` holds the characters of the current portion, the last one
    first, which has room for `room` more bytes. -/
def portionsFrom (room : Nat) (part : List Char) : List Char → List (List Char) × Bool
  | [] => (if part.isEmpty then [] else [part.reverse], true)
  | c :: t =>
    if room < c.utf8Size then
      if isAllowed c then
        let (portions, isComplete) := portionsFrom (portionSize - c.utf8Size) [c] t
        (part.reverse :: portions, isComplete)
      else ([part.reverse, []], false)
    else if isAllowed c then portionsFrom (room - c.utf8Size) (c :: part) t
    else ([part.reverse], false)

/-- The portions of a document; a byte order mark in front of it does not count. -/
def portionsOf (s : String) : List (List Char) × Bool :=
  match s.toList with
  | [] => ([], true)
  | c :: t =>
    if c == byteOrderMark then portionsFrom (portionSize - c.utf8Size) [] t
    else portionsFrom portionSize [] (c :: t)

/-! ### Windows -/

/-- What can be seen of a document, and what is left of it. -/
structure Window where
  /-- The characters that are decoded and not yet passed. -/
  ahead : List Char
  /-- The portions that are not yet decoded. -/
  portions : List (List Char)
  /-- Whether the document goes on to its end; otherwise the last portion ends at a character that
      may not stand in it. -/
  isComplete : Bool
  /-- Whether the window was last refilled at a byte order mark. -/
  startsAtMark : Bool

namespace Window

/-- The window on a whole document. -/
def ofString (s : String) : Window :=
  let (portions, isComplete) := portionsOf s
  ⟨[], portions, isComplete, false⟩

/-- Whether at least `n` characters are ahead. -/
def shows (w : Window) (n : Nat) : Bool :=
  n == 0 || !(w.ahead.drop (n - 1)).isEmpty

/-- The character after `n` others. -/
def look (w : Window) (n : Nat) : Char :=
  w.ahead.getD n ending

/-- Decodes portions until `n` characters are ahead: what is ahead then, what is left, and whether
    no character was met that may not stand in a document.  At the end one NUL is put ahead. -/
def decode (n : Nat) (isComplete : Bool) (ahead : List Char) :
    List (List Char) → List Char × List (List Char) × Bool
  | [] => if isComplete then (ahead ++ [ending], [], true) else (ahead, [], false)
  | portion :: rest =>
    let ahead := ahead ++ portion
    if rest.isEmpty && !isComplete then (ahead, [], false)
    else if n ≤ ahead.length then (ahead, rest, true)
    else decode n isComplete ahead rest

/-- Refills a window until it shows `n` characters, and tells whether that succeeded. -/
def refill (n : Nat) (w : Window) : Window × Bool :=
  let (ahead, rest, succeeded) := decode n w.isComplete w.ahead w.portions
  (⟨ahead, rest, w.isComplete, ahead.head? == some byteOrderMark⟩, succeeded)

/-- The window after `n` characters. -/
def drop (w : Window) (n : Nat) : Window :=
  { w with ahead := w.ahead.drop n }

end Window

end Allotment.Yaml
