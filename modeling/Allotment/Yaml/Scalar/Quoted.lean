import Allotment.Yaml.Scalar.Plain

namespace Allotment.Yaml

/-!
# Quoted scalars

Between single quotes a quote is written twice and all else stands for itself.  Between double
quotes a backslash starts an escape, and in front of a line end it joins two lines.  Line ends are
folded as in plain scalars.

* `readEscape` — the character that an escape stands for;
* `readQuoted` — a scalar between single or double quotes.
-/

open Yaml.Reading

/-! ### Escapes -/

/-- The character that a letter after a backslash stands for. -/
def escapeOf? : Char → Option Char
  | '0' => some '\x00'
  | 'a' => some '\x07'
  | 'b' => some '\x08'
  | 't' | '\t' => some '\t'
  | 'n' => some '\n'
  | 'v' => some '\x0b'
  | 'f' => some '\x0c'
  | 'r' => some '\r'
  | 'e' => some '\x1b'
  | ' ' => some ' '
  | '"' => some '"'
  | '\'' => some '\''
  | '\\' => some '\\'
  | 'N' => some '\x85'
  | '_' => some '\xa0'
  | 'L' => some '\u2028'
  | 'P' => some '\u2029'
  | _ => none

/-- The number of hexadecimal digits after a letter that starts a numeric escape. -/
def escapeWidth? : Char → Option Nat
  | 'x' => some 2
  | 'u' => some 4
  | 'U' => some 8
  | _ => none

/-- The value of a hexadecimal digit. -/
def hexDigit? (c : Char) : Option Nat :=
  if '0' ≤ c && c ≤ '9' then some (c.toNat - '0'.toNat)
  else if 'a' ≤ c && c ≤ 'f' then some (c.toNat - 'a'.toNat + 10)
  else if 'A' ≤ c && c ≤ 'F' then some (c.toNat - 'A'.toNat + 10)
  else none

/-- The number that hexadecimal digits are written for. -/
def hexNumber? (cs : List Char) : Option Nat :=
  (cs.mapM hexDigit?).map fun ds => ds.foldl (fun n d => n * 16 + d) 0

/-- Reads the character of a numeric escape, which has `width` digits, in what starts at `start`. -/
def readCode (start : Mark) (width : Nat) : Reading Char := do
  ensure width
  let digits ← (List.range width).mapM look
  match hexNumber? digits with
  | none => fail .badEscapeDigits start
  | some n =>
    if !n.isValidChar then fail .badEscapeCode start
    skipMany width
    pure (Char.ofNat n)

/-- Reads an escape in what starts at `start`. -/
def readEscape (start : Mark) : Reading Char := do
  let c ← look 1
  match escapeOf? c, escapeWidth? c with
  | some d, _ =>
    skipMany 2
    pure d
  | none, some width =>
    skipMany 2
    readCode start width
  | none, none => fail .unknownEscape start

/-! ### Reading -/

/-- Reads the characters of a quoted scalar up to a blank, an escaped line end or the last quote;
    `fuel` bounds their number. -/
def quotedWord (quote : Char) (start : Mark) (fuel : Nat) (f : Folded) : Reading Folded :=
  match fuel with
  | 0 => pure f
  | fuel + 1 => do
    let c ← next
    let d ← look 1
    if endsWord c then pure f
    else if quote == '\'' && c == quote && d == quote then
      skipMany 2
      ensure 2
      quotedWord quote start fuel (f.add quote)
    else if c == quote then pure f
    else if quote == '"' && c == '\\' && isBreak d then
      ensure 3
      skip
      skipBreak
      pure { f with blanks := .breaks none [] }
    else if quote == '"' && c == '\\' then
      let e ← readEscape start
      ensure 2
      quotedWord quote start fuel (f.add e)
    else
      skip
      ensure 2
      quotedWord quote start fuel (f.add c)

/-- Reads on up to the last quote of a scalar that starts at `start`; `fuel` bounds the number of
    its words. -/
def quotedFrom (quote : Char) (start : Mark) (fuel : Nat) (f : Folded) : Reading Folded :=
  match fuel with
  | 0 => pure f
  | fuel + 1 => do
    ensure 4
    if ← startsDocumentRule then fail .documentInQuotes start
    if (← next) == ending then fail .endInQuotes start
    let f ← quotedWord quote start (← bound) f
    ensure 1
    if (← next) == quote then return f
    let f ← readBlanks start 0 (← bound) f
    quotedFrom quote start fuel f.flush

/-- Reads a scalar between quotes, of which the first one is next. -/
def readQuoted (quote : Char) : Reading String := do
  let start ← mark
  skip
  let f ← quotedFrom quote start (← bound) .none
  skip
  pure f.text

end Allotment.Yaml
