import Allotment.IntervalSet.Cell
import Allotment.Range.Parser

namespace Allotment

/-!
# Set expressions

An expression is a list of operations on a set of 64-bit numbers, applied in order to the empty set:

* `+RANGE` adds the numbers of a range;
* `-RANGE` takes them away;
* `~` replaces the set by its complement.

`Expression.eval` reads and applies the operations; `Expression.report` shows the result together
with its span and its complement.
-/

/-- One step of an expression. -/
inductive Operation where
  | add (r : Range Int64)
  | remove (r : Range Int64)
  | complement

namespace Operation

/-- Why a text is not an operation. -/
inductive ParseError where
  | tooShort (text : Text)
  | badRange (text : Text) (e : Range.ParseError Decimal.Error)
  | unknownOperator (text : Text) (operator : Char)

/-- The message of a reading error. -/
def ParseError.message : ParseError → String
  | .tooShort t => "invalid operation " ++ t.quoted
  | .badRange t e => "operation " ++ t.quoted ++ ": " ++ e.message Decimal.Error.message
  | .unknownOperator t c => "operation " ++ t.quoted ++ ": unknown operator " ++ Text.quotedChar c

/-- The operation of an operator on a range. -/
def make? (operator : Char) (r : Range Int64) : Option Operation :=
  match operator with
  | '+' => some (.add r)
  | '-' => some (.remove r)
  | _ => none

/-- Reads an operation.  The range is read before the operator is looked at, and starts after the
    first byte of the text. -/
def parse (text : Text) : Except ParseError Operation :=
  let t := text.trim
  if t == [.char '~'] then .ok .complement
  else
    match t with
    | [] => .error (.tooShort t)
    | g :: _ =>
      if t.byteLength < 2 then .error (.tooShort t)
      else
        match Range.parseInt t.dropByte with
        | .error e => .error (.badRange t e)
        | .ok r =>
          match make? g.leadChar r with
          | some op => .ok op
          | none => .error (.unknownOperator t g.leadChar)

/-- Applies an operation to a set. -/
def apply (s : IntervalSet Int64) : Operation → IntervalSet Int64
  | .add r => ((Cell.ofSet s).apply (.add (some r))).1.set
  | .remove r => ((Cell.ofSet s).apply (.remove (some r))).1.set
  | .complement => View.copy ⟨s, .outside⟩

end Operation

namespace Expression

/-- The set that a list of operation texts makes; the first text that cannot be read is an error. -/
def eval (texts : List Text) : Except Operation.ParseError (IntervalSet Int64) := do
  let operations ← texts.mapM Operation.parse
  pure (operations.foldl Operation.apply (.empty Order.int64))

/-- The lines that show a set: its intervals, the least interval around them, and its complement.
    An empty set has no such interval. -/
def lines (s : IntervalSet Int64) : List String :=
  let inside : View Int64 := ⟨s, .inside⟩
  ["set:        " ++ inside.text] ++
    inside.span?.toList.map (fun i => "span:       " ++ i.text) ++
    ["complement: " ++ inside.complement.text]

/-- Evaluates an expression and shows the result. -/
def report (texts : List Text) : Except Operation.ParseError String := do
  let s ← eval texts
  pure (String.join ((lines s).map (· ++ "\n")))

end Expression

end Allotment
