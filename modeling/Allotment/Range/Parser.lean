import Allotment.Order
import Allotment.Range.Reading
import Allotment.Text.Blank

namespace Allotment

/-!
# Reading interval notation

`Range.parse` reads the notation that `Interval.text` writes: `[1‥3]`, `(4‥+∞)`, `(-∞‥5]`.  Two dots
may stand for the separator, an infinite end may be spelt `inf` or left out, and blanks may surround
the text and its ends.  As a shorthand, `a-b` is read as `[a‥b]` and a lone value as `[v‥v]`.

The reader of the values is a parameter, and so is the order that decides which end comes first.
`Reading.parse` reads the same notation where there may be no order; then only a lone value is
taken, because no interval between two ends is valid.
-/

universe u v

namespace Range

/-- Why a text is not a range.  `ε` is what the reader of the values reports. -/
inductive ParseError (ε : Type v) where
  | blank
  | unclosed (text : Text)
  | unseparated (text : Text)
  | badLower (part text : Text) (cause : ε)
  | badUpper (part text : Text) (cause : ε)
  | closedBelow (text : Text)
  | closedAbove (text : Text)
  | badValue (text : Text) (cause : ε)
  | badFrom (part text : Text) (cause : ε)
  | badTo (part text : Text) (cause : ε)
  | inverted (text : Text)

/-- The message of a reading error. -/
def ParseError.message {ε : Type v} (cause : ε → String) : ParseError ε → String
  | .blank => "empty range"
  | .unclosed t => "no closing bracket in range " ++ t.quoted
  | .unseparated t => "no separator in range " ++ t.quoted
  | .badLower p t e =>
    "invalid lower endpoint " ++ p.quoted ++ " in range " ++ t.quoted ++ ": " ++ cause e
  | .badUpper p t e =>
    "invalid upper endpoint " ++ p.quoted ++ " in range " ++ t.quoted ++ ": " ++ cause e
  | .closedBelow t => "unbounded lower endpoint cannot be closed in range " ++ t.quoted
  | .closedAbove t => "unbounded upper endpoint cannot be closed in range " ++ t.quoted
  | .badValue t e => "invalid value " ++ t.quoted ++ ": " ++ cause e
  | .badFrom p t e => "invalid from " ++ p.quoted ++ " in range " ++ t.quoted ++ ": " ++ cause e
  | .badTo p t e => "invalid to " ++ p.quoted ++ " in range " ++ t.quoted ++ ": " ++ cause e
  | .inverted t => "invalid range: invalid argument: " ++ t.quoted

/-- The spellings of an infinite lower end. -/
def lowerInfinities : List String := ["-∞", "-inf", ""]

/-- The spellings of an infinite upper end. -/
def upperInfinities : List String := ["+∞", "∞", "+inf", "inf", ""]

/-- Whether a text is one of the given spellings, in any letter case. -/
def isSpelling (spellings : List String) (t : Text) : Bool :=
  spellings.any fun word => t.matchesWord word

/-- The parts of a bracketed text's body around its separator. -/
def splitEnds (body : Text) : Option (Text × Text) :=
  match Text.cutAt (Text.ofString "‥") body with
  | some parts => some parts
  | none => Text.cutAt (Text.ofString "..") body

variable {α : Type u} {ε : Type v}

section Notation

variable (accepts : Interval α → Bool) (value : Text → Except ε α)

/-- The cut of a lower end that is written beside a bracket, inside the range text `t`. -/
def parseLower (t part : Text) (closed : Bool) : Except (ParseError ε) (Cut α) :=
  if isSpelling lowerInfinities part then
    if closed then .error (.closedBelow t) else .ok .bottom
  else
    match value part with
    | .ok v => .ok (Cut.lowerEnd v closed)
    | .error e => .error (.badLower part t e)

/-- The cut of an upper end that is written beside a bracket, inside the range text `t`. -/
def parseUpper (t part : Text) (closed : Bool) : Except (ParseError ε) (Cut α) :=
  if isSpelling upperInfinities part then
    if closed then .error (.closedAbove t) else .ok .top
  else
    match value part with
    | .ok v => .ok (Cut.upperEnd v closed)
    | .error e => .error (.badUpper part t e)

/-- The interval between two cuts that were read from `t`, which must be acceptable. -/
def checked (t : Text) (i : Interval α) : Except (ParseError ε) (Interval α) :=
  if accepts i then .ok i else .error (.inverted t)

/-- Reads a text that starts with a bracket; `closedLower` says which kind. -/
def parseBracketed (t : Text) (closedLower : Bool) : Except (ParseError ε) (Interval α) := do
  let last := t.getLast?
  let closedUpper := last == some (.char ']')
  if !closedUpper && last != some (.char ')') then
    throw (.unclosed t)
  match splitEnds t.tail.dropLast with
  | none => throw (.unseparated t)
  | some (front, back) =>
    let lower ← parseLower value t front.trim closedLower
    let upper ← parseUpper value t back.trim closedUpper
    checked accepts t ⟨lower, upper⟩

/-- Reads a lone value, or two values around a hyphen.  The first glyph can be a sign, so the hyphen
    is sought behind it. -/
def parseShorthand (t : Text) : Except (ParseError ε) (Interval α) :=
  match Text.cutAt [.char '-'] t.tail with
  | none =>
    match value t with
    | .ok v => .ok (.singleton v)
    | .error e => .error (.badValue t e)
  | some (front, back) => do
    let part : Text := t.take 1 ++ front
    let lower ← (value part.trim).mapError (.badFrom part t)
    let upper ← (value back.trim).mapError (.badTo back t)
    checked accepts t (.closed lower upper)

/-- Reads an interval; one with two ends must be acceptable. -/
def parseInterval (s : Text) : Except (ParseError ε) (Interval α) :=
  let t := s.trim
  match t with
  | [] => .error .blank
  | .char '[' :: _ => parseBracketed accepts value t true
  | .char '(' :: _ => parseBracketed accepts value t false
  | _ => parseShorthand accepts value t

end Notation

/-- Reads a range, which must be valid in its order. -/
def parse (cmp : α → α → Ordering) (value : Text → Except ε α) (s : Text) :
    Except (ParseError ε) (Range α) :=
  (parseInterval (fun i => i.isValid cmp) value s).map fun i => ⟨i, cmp⟩

/-- Reads a range of 64-bit integers in their natural order. -/
def parseInt (s : Text) : Except (ParseError Decimal.Error) (Range Int64) :=
  parse Order.int64 Decimal.parseInt s

end Range

/-- Reads a range for which there may be no order. -/
def Reading.parse {α : Type u} {ε : Type v} (cmp? : Option (α → α → Ordering))
    (value : Text → Except ε α) (s : Text) : Except (Range.ParseError ε) (Reading α) :=
  (Range.parseInterval (fun i => Reading.isValid ⟨i, cmp?⟩) value s).map fun i => ⟨i, cmp?⟩

end Allotment
