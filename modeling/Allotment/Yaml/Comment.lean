import Allotment.Yaml.Reader

namespace Allotment.Yaml

/-!
# Comments

A comment goes from a number sign to the end of its line.  Comments between two tokens belong to one
of them, which depends on the columns in which they start and on the empty lines around them:

* `readBehind` — a comment behind a token, on the same line;
* `readBetween` — the comments before the next token.  Those that are not indented like what
  follows, or stand right below a token, belong to what is above them.

Where the next comment is, is found by looking ahead, but not further than a portion.  When a
character that may not stand in a document is met there, the look ahead ends.
-/

namespace Comment

open Yaml.Reading

/-- Adds a comment to those that were read. -/
def add (c : Comment) : Reading Unit :=
  modify fun r => { r with comments := r.comments ++ [c] }

/-- Passes over text up to the end of a line, and gives what follows the first `seen` characters of
    the document, with the last character first; `fuel` bounds the number of characters. -/
def readFrom (seen : Nat) (fuel : Nat) (text : List Char) : Reading (List Char) :=
  match fuel with
  | 0 => pure text
  | fuel + 1 => do
    ensure 1
    let c ← next
    let isSeen := seen ≤ (← mark).index
    if endsLine c then
      if isSeen then pure text
      else
        ensure 2
        skipBreak
        readFrom seen fuel text
    else
      skip
      readFrom seen fuel (if isSeen then c :: text else text)

/-! ### Behind a token -/

/-- The number of blanks in front of a comment on the same line, if one follows `n` blanks. -/
def blanksBefore? (fuel n : Nat) : Reading (Option Nat) :=
  match fuel with
  | 0 => pure none
  | fuel + 1 => do
    if !(← succeeds (ensure (n + 1))) then return none
    let c ← look n
    if isBlank c then blanksBefore? fuel (n + 1)
    else pure (if c == '#' then some n else none)

/-- Passes over a comment on the same line, which belongs to the token that starts at a place. -/
def readBehind (token : Mark) : Reading Unit := do
  let r ← get
  if r.breaks == 0 then
    if let some n ← blanksBefore? portionSize 0 then
      let text ← readFrom (r.mark.index + n) (← bound) []
      add ⟨.behind, text.reverse, token, r.mark.skip n, 0, 0⟩

/-! ### Between tokens -/

/-- Where comments stand. -/
structure Setting where
  inFlow : Bool
  /-- The column of the block around them. -/
  margin : Nat
  /-- Whether the token above them is the indicator of a value. -/
  afterValue : Bool
  /-- The line right below the token above them. -/
  nextLine : Option Nat
  /-- Whether there is at most one line end between the token and the comments. -/
  isNear : Bool

/-- What is known of the comments between two tokens.  Places are those of characters that are
    looked at, with columns counted from one. -/
structure Gathering where
  line : Nat
  column : Nat
  /-- Where the blanks in front of the current comment start. -/
  scanIndex : Nat
  /-- The token to which a comment belongs that goes with what is above it. -/
  token : Mark
  /-- Where the current comment starts. -/
  start : Mark
  /-- The current comment, which may have several lines, with the last character first. -/
  text : List Char
  /-- Whether only line ends were met since the last comment. -/
  afterBreak : Bool
  /-- Whether no empty line was met yet. -/
  isFirst : Bool

namespace Gathering

/-- Ends the current comment in front of the character after `n` others.  It belongs to what is
    above. -/
def endBelow (g : Gathering) (n : Nat) : Reading Gathering := do
  let stop := (← mark).index + n
  add ⟨.below, g.text.reverse, g.token, g.start, g.scanIndex, stop⟩
  pure { g with text := [], scanIndex := stop, token := ⟨g.line, g.column, stop⟩ }

/-- Whether the current comment starts left of the block around it. -/
def isOutside (g : Gathering) (s : Setting) : Bool :=
  g.start.column ≤ s.margin

/-- Whether the current comment belongs to what is above it, when an empty line follows. -/
def goesBelow (g : Gathering) (s : Setting) : Bool :=
  s.isNear && g.isFirst &&
    ((some g.start.line == s.nextLine && !s.afterValue) || g.isOutside s)

/-- What becomes of the current comment at a line end, at a closing bracket or at the end of the
    document, which stands after `n` characters. -/
def atLineEnd (g : Gathering) (s : Setting) (n : Nat) (c : Char) : Reading Gathering := do
  if endsLine c && g.afterBreak then pure g
  else if !endsLine c || g.goesBelow s then
    if g.text.isEmpty then pure g
    else (if g.isOutside s then { g with token := g.start } else g).endBelow n
  else if g.text.isEmpty || c == ending then pure g
  else pure { g with text := '\n' :: g.text }

/-- Starts a comment, or a line of one, at the number sign after `n` characters, and passes over
    it. -/
def addLine (g : Gathering) (n : Nat) : Reading Gathering := do
  let seen := (← mark).index + n
  let g :=
    if g.text.isEmpty then { g with start := ⟨g.line, g.column, seen⟩ }
    else { g with text := '\n' :: g.text }
  let text ← readFrom seen (← bound) g.text
  pure { g with text := text, afterBreak := false, line := (← mark).line, column := 0 }

end Gathering

/-- Gathers comments, with `n` characters looked at since the last one.  `isInside` says that the
    last of those is a line end of more than one byte.  Gives the number of characters looked at in
    the end; `fuel` bounds the number of steps. -/
def gather (s : Setting) (fuel n : Nat) (isInside : Bool) (g : Gathering) :
    Reading (Nat × Gathering) :=
  match fuel with
  | 0 => pure (n, g)
  | fuel + 1 => do
    if portionSize ≤ n then return (n, g)
    if !(← succeeds (ensure (n + 1))) then return (n, g)
    let c ← look n
    let g := { g with column := g.column + 1 }
    if isInside then
      let g ← if !g.text.isEmpty && g.column ≤ s.margin && g.column != g.start.column then
          g.endBelow n else pure g
      pure (n, g)
    else if isBlank c then gather s fuel (n + 1) false g
    else if endsLine c || (s.inFlow && (c == ']' || c == '\x7d')) then
      let g ← g.atLineEnd s n c
      if isBreak c then
        gather s fuel (n + 1) (isWideBreak c)
          { g with isFirst := false, afterBreak := true, column := 0, line := g.line + 1 }
      else pure (n, g)
    else
      let g ← if !g.text.isEmpty && g.column ≤ s.margin && g.column != g.start.column then
          g.endBelow n else pure g
      if c == '#' then
        let g ← g.addLine n
        gather s fuel 1 (isWideBreak (← next)) g
      else pure (n, g)

/-- Passes over the comments before the next token, of which the first one starts here.  `scan` is
    the end of the token above them, and `token` the start of the token to which comments below it
    belong. -/
def readBetween (s : Setting) (scan token : Mark) : Reading Unit := do
  let m ← mark
  let fuel := (portionSize + 1) * ((← bound) + 1)
  let (n, g) ← gather s fuel 0 false ⟨m.line, m.column, scan.index, token, .origin, [], false, true⟩
  if !g.text.isEmpty then
    add ⟨.inFront, g.text.reverse, g.start, g.start, g.scanIndex, (← mark).index + n - 1⟩

end Comment

end Allotment.Yaml
