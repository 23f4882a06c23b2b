import Allotment.Yaml.Window

namespace Allotment.Yaml

/-!
# Reading characters

A `Reader` goes through a document from character to character and knows its place.  What it does is
written in the monad `Reading`.  When a reading fails, the reader stays where it was found to fail,
and remembers why: some failures are passed over.

* `Reading.ensure` — sees to it that characters can be looked at with `Reading.look`;
* `Reading.skip`, `Reading.skipBreak`, `Reading.readBreak` — pass over a character or a line end;
* `Reading.takeWhile` — passes over the characters that pass a test, and gives them;
* `Reading.fail` — fails.

`Comment` is what a reader keeps of a comment.  A comment belongs to the token at or after a certain
place; only those in front of a token have an effect on reading.
-/

/-! ### Comments -/

/-- Where a comment stands. -/
inductive Placement where
  | inFront
  | behind
  | below
deriving DecidableEq

/-- A comment. -/
structure Comment where
  placement : Placement
  text : List Char
  /-- Where the token starts to which the comment belongs. -/
  token : Mark
  start : Mark
  /-- The number of characters before the blanks in front of the comment. -/
  scanIndex : Nat
  /-- The number of characters before what follows the comment. -/
  stopIndex : Nat

/-! ### Readers -/

/-- The state of reading a document. -/
structure Reader where
  window : Window
  /-- The place of the next character. -/
  mark : Mark
  /-- The number of line ends since the last character that is no blank. -/
  breaks : Nat
  /-- The last error. -/
  trouble : Option SyntaxError
  /-- The comments that do not belong to a token yet, in their order. -/
  comments : List Comment
  /-- The number of characters of the document. -/
  size : Nat

namespace Reader

/-- A reader at the start of a document. -/
def ofString (s : String) : Reader :=
  ⟨.ofString s, .origin, 0, none, [], s.length⟩

/-- The error of a problem, and the reader that remembers it.  Places that are not given are those
    of the last error. -/
def blame (r : Reader) (problem : Problem) (start found : Option Mark) : SyntaxError × Reader :=
  let last := r.trouble.getD (.general problem)
  let e : SyntaxError := ⟨problem, start.getD last.start, found.getD last.found⟩
  (e, { r with trouble := some e })

/-- The reader after the character `c` of a line. -/
def advance (r : Reader) (c : Char) : Reader :=
  { r with
    window := r.window.drop 1
    mark := r.mark.next
    breaks := if isBlank c then r.breaks else 0 }

/-- The reader after a line end of `n` characters. -/
def advanceLine (r : Reader) (n : Nat) : Reader :=
  { r with
    window := r.window.drop n
    mark := ⟨r.mark.line + 1, 0, r.mark.index + n⟩
    breaks := r.breaks + 1 }

end Reader

/-- Reads from a document. -/
abbrev Reading := EStateM SyntaxError Reader

namespace Reading

/-! ### Looking ahead -/

/-- Fails with a problem of what starts at `start`. -/
def fail {α : Type} (problem : Problem) (start : Mark) : Reading α := fun r =>
  let (e, r) := r.blame problem (some start) (some r.mark)
  .error e r

/-- Sees to it that `n` characters can be looked at. -/
def ensure (n : Nat) : Reading Unit := fun r =>
  if r.window.shows n then .ok () r
  else
    match r.window.refill n with
    | (w, true) => .ok () { r with window := w }
    | (w, false) =>
      let (e, r) := { r with window := w }.blame .controlCharacter none none
      .error e r

/-- Whether a reading succeeds; a failure is passed over. -/
def succeeds (x : Reading Unit) : Reading Bool := fun r =>
  match x r with
  | .ok _ r => .ok true r
  | .error _ r => .ok false r

/-- The character after `n` others. -/
def look (n : Nat) : Reading Char := do
  pure ((← get).window.look n)

/-- The next character. -/
def next : Reading Char :=
  look 0

/-- The place of the next character. -/
def mark : Reading Mark := do
  pure (← get).mark

/-- A bound on how often something is done with another character each time. -/
def bound : Reading Nat := do
  pure ((← get).size + 1)

/-! ### Passing over characters -/

/-- Passes over a character. -/
def skip : Reading Unit :=
  modify fun r => r.advance (r.window.look 0)

/-- Passes over `n` characters. -/
def skipMany : Nat → Reading Unit
  | 0 => pure ()
  | n + 1 => do
    skip
    skipMany n

/-- Passes over a line end; a carriage return and a line feed are one line end. -/
def skipBreak : Reading Unit :=
  modify fun r =>
    let c := r.window.look 0
    if c == '\r' && r.window.look 1 == '\n' then r.advanceLine 2
    else if isBreak c then r.advanceLine 1
    else r

/-- Passes over a line end, and gives what it is read as: the separators of lines and paragraphs
    stand for themselves, and the others are read as a line feed. -/
def readBreak : Reading (Option Char) := do
  let c ← next
  skipBreak
  pure (if c == '\u2028' || c == '\u2029' then some c else if isBreak c then some '\n' else none)

/-- Passes over a line end, if there is one. -/
def skipLineEnd : Reading Unit := do
  if isBreak (← next) then
    ensure 2
    skipBreak

/-- Passes over the characters that pass a test, and gives them after those of `read`, which has the
    last one first; `fuel` bounds their number. -/
def takeFrom (test : Char → Bool) (fuel : Nat) (read : List Char) : Reading (List Char) :=
  match fuel with
  | 0 => pure read.reverse
  | fuel + 1 => do
    ensure 1
    let c ← next
    if test c then
      skip
      takeFrom test fuel (c :: read)
    else pure read.reverse

/-- Passes over the characters that pass a test, and gives them. -/
def takeWhile (test : Char → Bool) : Reading (List Char) := do
  takeFrom test (← bound) []

/-- Passes over the characters that pass a test. -/
def skipWhile (test : Char → Bool) : Reading Unit := do
  let _ ← takeWhile test

/-- Whether a line of three equal characters starts here, of which `c` is one. -/
def startsRule (c : Char) : Reading Bool := do
  let r ← get
  pure (r.mark.column == 0 && [0, 1, 2].all (fun n => r.window.look n == c) &&
    endsWord (r.window.look 3))

/-- Whether a line starts here that starts or ends a document. -/
def startsDocumentRule : Reading Bool := do
  pure ((← startsRule '-') || (← startsRule '.'))

end Reading

end Allotment.Yaml
