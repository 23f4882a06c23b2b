import Allotment.Yaml.Comment
import Allotment.Yaml.Scalar.Plain

namespace Allotment.Yaml

/-!
# Block scalars

A block scalar is a header and the indented lines after it.  In a literal scalar the lines are kept,
in a folded one they are joined, but for those that start with a blank.  The header may give the
indentation of the lines and say what becomes of the line ends after the last line.

* `BlockHeader` — the header of a block scalar;
* `readBlockScalar` — a block scalar with its header.
-/

open Yaml.Reading

/-! ### Headers -/

/-- What becomes of the line ends after the last line of a block scalar. -/
inductive Chomping where
  | strip
  | clip
  | keep
deriving DecidableEq

/-- How a block scalar is to be read. -/
structure BlockHeader where
  chomping : Chomping
  /-- The columns that the lines are indented more than the block around them. -/
  increment : Option Nat

/-- Reads the chomping of a header, if it comes next. -/
def readChomping? : Reading (Option Chomping) := do
  ensure 1
  match ← next with
  | '-' =>
    skip
    pure (some .strip)
  | '+' =>
    skip
    pure (some .keep)
  | _ => pure none

/-- Reads the increment of a header, if it comes next. -/
def readIncrement? (start : Mark) : Reading (Option Nat) := do
  ensure 1
  let c ← next
  if c == '0' then fail .zeroBlockMargin start
  if !c.isDigit then return none
  skip
  pure (some (c.toNat - '0'.toNat))

/-- Reads a header; its two parts may come in either order. -/
def readBlockHeader (start : Mark) : Reading BlockHeader := do
  match ← readChomping? with
  | some chomping => pure ⟨chomping, ← readIncrement? start⟩
  | none =>
    match ← readIncrement? start with
    | some n => pure ⟨(← readChomping?).getD .clip, some n⟩
    | none => pure ⟨.clip, none⟩

/-- Passes over the rest of the line of a header. -/
def endBlockHeader (start : Mark) : Reading Unit := do
  skipWhile isBlank
  if (← next) == '#' then
    Comment.readBehind start
    skipWhile fun c => !endsLine c
  if !endsLine (← next) then fail .badBlockHeader start
  skipLineEnd

/-! ### Lines -/

/-- Passes over spaces up to a margin; `fuel` bounds their number. -/
def skipIndent (margin : Option Nat) (fuel : Nat) : Reading Unit :=
  match fuel with
  | 0 => pure ()
  | fuel + 1 => do
    ensure 1
    let column := (← mark).column
    if (← next) == ' ' && margin.all fun n => column < n then
      skip
      skipIndent margin fuel

/-- Passes over the indentation of a line and over empty lines before it.  Without a margin, all
    spaces are indentation.  Gives the line ends, the last one first, and the greatest column
    reached; `fuel` bounds the number of lines. -/
def skipMargin (start : Mark) (margin : Option Nat) (fuel : Nat) (breaks : List Char)
    (widest : Nat) : Reading (List Char × Nat) :=
  match fuel with
  | 0 => pure (breaks, widest)
  | fuel + 1 => do
    skipIndent margin (← bound)
    let column := (← mark).column
    let c ← next
    if c == '\t' && margin.all fun n => column < n then fail .tabInBlockMargin start
    if isBreak c then
      ensure 2
      let d ← readBreak
      skipMargin start margin fuel (d.toList ++ breaks) (max widest column)
    else pure (breaks, max widest column)

/-- What was read of a block scalar. -/
structure BlockContent where
  /-- The text without the last line ends, the last character first. -/
  read : List Char
  /-- The end of the last line. -/
  ending : Option Char
  /-- The ends of the empty lines after it, the last one first. -/
  empties : List Char
  /-- Whether the last line starts with a blank. -/
  startsBlank : Bool

/-- Adds a line.  The end of the line before it is read as a space if both lines are to be
    joined. -/
def BlockContent.addLine (isLiteral : Bool) (b : BlockContent) (line : List Char)
    (ending : Option Char) (empties : List Char) : BlockContent :=
  let startsBlank := line.head?.any isBlank
  let joined := !isLiteral && !b.startsBlank && !startsBlank && b.ending == some '\n'
  let between :=
    if joined then (if b.empties.isEmpty then [' '] else b.empties)
    else b.empties ++ b.ending.toList
  ⟨line.reverse ++ between ++ b.read, ending, empties, startsBlank⟩

/-- The text of a block scalar. -/
def BlockContent.text (chomping : Chomping) (b : BlockContent) : String :=
  let tail := match chomping with
    | .strip => []
    | .clip => b.ending.toList
    | .keep => b.empties ++ b.ending.toList
  String.ofList (tail ++ b.read).reverse

/-- Reads the lines of a block scalar that start in the column `margin`; `fuel` bounds their
    number. -/
def blockLines (isLiteral : Bool) (start : Mark) (margin fuel : Nat) (b : BlockContent) :
    Reading BlockContent :=
  match fuel with
  | 0 => pure b
  | fuel + 1 => do
    if (← mark).column != margin || (← next) == Yaml.ending then return b
    let line ← takeWhile fun c => !endsLine c
    ensure 2
    let ending ← readBreak
    let (empties, _) ← skipMargin start (some margin) (← bound) [] 0
    blockLines isLiteral start margin fuel (b.addLine isLiteral line ending empties)

/-! ### Reading -/

/-- Reads a block scalar, of which the first character says whether it is literal; `indent` is the
    indentation of the block around it, if there is one. -/
def readBlockScalar (indent : Option Nat) : Reading String := do
  let start ← mark
  let isLiteral := (← next) == '|'
  skip
  let header ← readBlockHeader start
  endBlockHeader start
  let margin := header.increment.map fun n => indent.getD 0 + n
  let (breaks, widest) ← skipMargin start margin (← bound) [] 0
  let least := match indent with
    | some n => n + 1
    | none => 1
  let margin := margin.getD (max widest least)
  let b ← blockLines isLiteral start margin (← bound) ⟨[], none, breaks, false⟩
  pure (b.text header.chomping)

end Allotment.Yaml
