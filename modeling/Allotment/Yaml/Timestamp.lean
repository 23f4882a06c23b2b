namespace Allotment.Yaml

/-!
# Timestamps

A timestamp is a date, written as a year of four digits, a month and a day, or a date with a time of
day.  The time comes after a letter and has a zone, or comes after blanks and has none.
-/

/-- Whether a character is a decimal digit. -/
def isDigit (c : Char) : Bool :=
  '0' ≤ c && c ≤ '9'

/-- The number that some digits are written for. -/
def numberOf (digits : List Char) : Nat :=
  digits.foldl (fun n c => n * 10 + (c.toNat - '0'.toNat)) 0

/-- The number of days of a month. -/
def daysIn (year month : Nat) : Nat :=
  let isLeap := year % 4 == 0 && (year % 100 != 0 || year % 400 == 0)
  match month with
  | 2 => if isLeap then 29 else 28
  | 4 | 6 | 9 | 11 => 30
  | _ => 31

/-- Reads a number of one or two digits, and gives the text after it. -/
def readField? (cs : List Char) : Option (Nat × List Char) :=
  match (cs.take 2).takeWhile isDigit with
  | [] => none
  | digits => some (numberOf digits, cs.drop digits.length)

/-- Reads a number of one or two digits after a given character. -/
def readFieldAfter? (c : Char) : List Char → Option (Nat × List Char)
  | d :: t => if c == d then readField? t else none
  | [] => none

/-- Reads a date, and gives the text after it. -/
def readDate? (cs : List Char) : Option (List Char) := do
  let year := cs.takeWhile isDigit
  let (month, t) ← readFieldAfter? '-' (cs.drop year.length)
  let (day, t) ← readFieldAfter? '-' t
  if year.length == 4 && 1 ≤ month && month ≤ 12 && 1 ≤ day &&
      day ≤ daysIn (numberOf year) month then
    some t
  else none

/-- Passes over the fraction of a second. -/
def skipFraction : List Char → List Char
  | c :: d :: t => if (c == '.' || c == ',') && isDigit d then t.dropWhile isDigit else c :: d :: t
  | t => t

/-- Reads a time of day, and gives the text after it. -/
def readClock? (cs : List Char) : Option (List Char) := do
  let (hour, t) ← readField? cs
  let (minute, t) ← readFieldAfter? ':' t
  let (second, t) ← readFieldAfter? ':' t
  if hour < 24 && minute < 60 && second < 60 then some (skipFraction t) else none

/-- Whether a text is a time zone: a letter, or hours and minutes after a sign. -/
def isZone : List Char → Bool
  | ['Z'] => true
  | [sign, h, i, ':', m, n] =>
    (sign == '+' || sign == '-') && [h, i, m, n].all isDigit && numberOf [h, i] ≤ 24 &&
      numberOf [m, n] ≤ 60
  | _ => false

/-- Whether a text is a timestamp. -/
def isTimestamp (cs : List Char) : Bool :=
  match readDate? cs with
  | none => false
  | some [] => true
  | some (c :: t) =>
    if c == 'T' || c == 't' then (readClock? t).any isZone
    else c == ' ' && (readClock? (t.dropWhile (· == ' '))).any List.isEmpty

end Allotment.Yaml
