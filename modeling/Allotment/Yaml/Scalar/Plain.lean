import Allotment.Yaml.Reader

namespace Allotment.Yaml

/-!
# Plain scalars

A plain scalar has no quotes and may go over several lines.  A single line end in it is read as a
space, and each further one as a line feed; blanks around line ends are dropped.

* `Fold` — the blanks and line ends between two other characters of a scalar;
* `Folded` — what was read of a scalar whose lines are joined;
* `readPlain` — a plain scalar, which ends at an indicator, at a comment, or where the indentation
  ends.
-/

/-! ### Folding -/

/-- The blanks that were read since the last other character. -/
inductive Fold where
  /-- Spaces and tabs within a line, the last one first. -/
  | gaps (cs : List Char)
  /-- Line ends: the first one, unless it was escaped, and the others, the last one first. -/
  | breaks (first : Option Char) (others : List Char)

namespace Fold

/-- No blanks. -/
def none : Fold :=
  .gaps []

/-- Adds a space or a tab; after a line end it does not count. -/
def addGap (c : Char) : Fold → Fold
  | .gaps cs => .gaps (c :: cs)
  | .breaks first others => .breaks first others

/-- Adds a line end; blanks before it do not count. -/
def addBreak (c : Option Char) : Fold → Fold
  | .gaps _ => .breaks c []
  | .breaks first others => .breaks first (c.toList ++ others)

/-- What the blanks are read as, the last character first.  A line feed that comes first is read as
    a space, or as nothing if there are other line ends. -/
def content : Fold → List Char
  | .gaps cs => cs
  | .breaks (some '\n') [] => [' ']
  | .breaks (some '\n') others => others
  | .breaks (some c) others => others ++ [c]
  | .breaks Option.none others => others

/-- Whether there is a line end. -/
def hasBreak : Fold → Bool
  | .gaps _ => false
  | .breaks _ _ => true

end Fold

/-- What was read of a scalar: its text up to the last character that is no blank, the last
    character first, and the blanks after it. -/
structure Folded where
  read : List Char
  blanks : Fold

namespace Folded

/-- Nothing. -/
def none : Folded :=
  ⟨[], .none⟩

/-- What was read, with the blanks at its end counted as text. -/
def flush (f : Folded) : Folded :=
  ⟨f.blanks.content ++ f.read, .none⟩

/-- Adds a character that is no blank. -/
def add (f : Folded) (c : Char) : Folded :=
  ⟨c :: f.flush.read, .none⟩

/-- The text without the blanks at its end. -/
def text (f : Folded) : String :=
  String.ofList f.read.reverse

end Folded

open Yaml.Reading

/-- Reads blanks and line ends.  After a line end there can be no tab left of the column `margin` in
    what starts at `start`; `fuel` bounds the number of characters. -/
def readBlanks (start : Mark) (margin fuel : Nat) (f : Folded) : Reading Folded :=
  match fuel with
  | 0 => pure f
  | fuel + 1 => do
    let c ← next
    if isBlank c then
      if f.blanks.hasBreak && c == '\t' && (← mark).column < margin then fail .tabInMargin start
      skip
      ensure 1
      readBlanks start margin fuel { f with blanks := f.blanks.addGap c }
    else if isBreak c then
      ensure 2
      let d ← readBreak
      ensure 1
      readBlanks start margin fuel { f with blanks := f.blanks.addBreak d }
    else pure f

/-! ### Indicators -/

/-- Whether a character is an indicator inside brackets. -/
def isFlowIndicator (c : Char) : Bool :=
  c == ',' || c == '[' || c == ']' || c == '\x7b' || c == '\x7d'

/-- Whether a character can never start a plain scalar. -/
def isReserved (c : Char) : Bool :=
  isFlowIndicator c || c == '#' || c == '&' || c == '*' || c == '!' || c == '|' || c == '>' ||
    c == '\'' || c == '"' || c == '%' || c == '@' || c == '\x60'

/-- Whether a plain scalar can start with a character, given the one after it.  A dash can start one
    when no blank follows it, and outside of brackets so can a question mark or a colon. -/
def startsPlain (inFlow : Bool) (c d : Char) : Bool :=
  if c == '-' then !isBlank d
  else if c == '?' || c == ':' then !inFlow && !endsWord d
  else !endsWord c && !isReserved c

/-- Whether a plain scalar ends at a character, given the one after it. -/
def endsPlain (inFlow : Bool) (c d : Char) : Bool :=
  endsWord c || (c == ':' && endsWord d) || (inFlow && (isFlowIndicator c || c == '?'))

/-! ### Reading -/

/-- Where a scalar stands: inside brackets or not, and in which column the text of the block around
    it may start. -/
structure Setting where
  inFlow : Bool
  margin : Nat

/-- Reads the characters of a plain scalar up to a blank or an indicator; `fuel` bounds their
    number. -/
def plainWord (s : Setting) (fuel : Nat) (f : Folded) : Reading Folded :=
  match fuel with
  | 0 => pure f
  | fuel + 1 => do
    let c ← next
    if endsPlain s.inFlow c (← look 1) then pure f
    else
      skip
      ensure 2
      plainWord s fuel (f.add c)

/-- Reads on in a plain scalar that starts at `start`; `fuel` bounds the number of its words. -/
def plainFrom (s : Setting) (start : Mark) (fuel : Nat) (f : Folded) : Reading Folded :=
  match fuel with
  | 0 => pure f
  | fuel + 1 => do
    ensure 4
    if (← startsDocumentRule) || (← next) == '#' then return f
    let f ← plainWord s (← bound) f
    let c ← next
    if !isBlank c && !isBreak c then return f
    let f ← readBlanks start s.margin (← bound) f
    if !s.inFlow && (← mark).column < s.margin then return f
    plainFrom s start fuel f

/-- Reads a plain scalar, and the blanks and line ends after it.  Tells whether there are line
    ends. -/
def readPlain (s : Setting) : Reading (String × Bool) := do
  let f ← plainFrom s (← mark) (← bound) .none
  pure (f.text, f.blanks.hasBreak)

end Allotment.Yaml
