import Allotment.Text.Numeral
import Allotment.Yaml.Timestamp

namespace Allotment.Yaml

/-!
# Tags

A tag says what a value is taken for.  It may be written in front of the value; a plain scalar
without one is given a tag by its text.

* `Tag` — the tags, `Tag.text` for their written form, and `Tag.ofName` to look one up;
* `plainTag` — the tag of a plain scalar: numbers, truth values, timestamps and the null value are
  told from strings;
* `Tag.read` — what a scalar with a tag is read as.
-/

/-- What a value is taken for. -/
inductive Tag where
  | null
  | bool
  | int
  | float
  | timestamp
  | str
  | seq
  | map
  | merge
  | binary
  | other (text : String)
deriving DecidableEq

namespace Tag

/-- The written form of a tag. -/
def text : Tag → String
  | .null => "!!null"
  | .bool => "!!bool"
  | .int => "!!int"
  | .float => "!!float"
  | .timestamp => "!!timestamp"
  | .str => "!!str"
  | .seq => "!!seq"
  | .map => "!!map"
  | .merge => "!!merge"
  | .binary => "!!binary"
  | .other text => text

/-- The tags that have a meaning of their own. -/
def known : List Tag :=
  [.null, .bool, .int, .float, .timestamp, .str, .seq, .map, .merge, .binary]

/-- What the full names of the standard tags start with. -/
def standardStem : String := "tag:yaml.org,2002:"

/-- The written form of a tag, given its full name: two exclamation marks are short for the standard
    stem. -/
def shortForm (name : String) : String :=
  if name.startsWith standardStem then "!!" ++ (name.drop standardStem.length).toString else name

/-- The tag with a full name. -/
def ofName (name : String) : Tag :=
  (known.find? fun tag => tag.text == shortForm name).getD (.other (shortForm name))

end Tag

/-! ### Numbers -/

/-- A text without a sign at its front. -/
def dropSign : List Char → List Char
  | '+' :: t => t
  | '-' :: t => t
  | t => t

/-- A decimal fraction: the digits on both sides of its point, and its exponent. -/
structure Fraction where
  whole : List Char
  places : List Char
  exponent : Int

/-- Reads an exponent: nothing, or a letter, an optional sign and digits. -/
def readExponent? : List Char → Option Int
  | [] => some 0
  | c :: t =>
    let digits := dropSign t
    if (c == 'e' || c == 'E') && !digits.isEmpty && digits.all isDigit then
      some (if t.head? == some '-' then -numberOf digits else numberOf digits)
    else none

/-- Reads a decimal fraction: digits around an optional point, and an exponent.  The point cannot
    stand without digits. -/
def readFraction? (cs : List Char) : Option Fraction :=
  let t := dropSign cs
  let whole := t.takeWhile isDigit
  match t.dropWhile isDigit with
  | '.' :: t =>
    let places := t.takeWhile isDigit
    if whole.isEmpty && places.isEmpty then none
    else (readExponent? (t.dropWhile isDigit)).map fun e => ⟨whole, places, e⟩
  | t => if whole.isEmpty then none else (readExponent? t).map fun e => ⟨whole, [], e⟩

/-- The digits of the least number that is too large for a floating-point number of 64 bits: the
    greatest one has 53 bits set below the bit of weight 1024, and half a bit more rounds up. -/
def floatLimit : List Char :=
  Nat.toDigits 10 (1 <<< 1024 - 1 <<< 970)

/-- Whether a fraction is small enough for a floating-point number. -/
def Fraction.isFinite (f : Fraction) : Bool :=
  let digits := (f.whole ++ f.places).dropWhile (· == '0')
  let point : Int := digits.length - f.places.length + f.exponent
  digits.isEmpty || point < floatLimit.length || (point == floatLimit.length && digits < floatLimit)

/-- Whether a text is a floating-point number. -/
def isFloat (cs : List Char) : Bool :=
  (readFraction? cs).any Fraction.isFinite

/-- Whether a text is a signed whole number of 64 bits.  A sign may also follow the letters of the
    bases two and eight. -/
def isSigned (cs : List Char) : Bool :=
  (Numeral.readInt (cs.map .char)).isOk ||
    match cs with
    | '0' :: base :: sign :: digits =>
      (base == 'b' || base == 'o') && (sign == '+' || sign == '-') && digits.all isDigit &&
        (Numeral.readInt ([sign, '0', base].map Glyph.char ++ digits.map Glyph.char)).isOk
    | _ => false

/-- Whether a text is a whole number of 64 bits, signed or not. -/
def isWhole (cs : List Char) : Bool :=
  isSigned cs || (Numeral.readNat Decimal.maxWord (cs.map .char)).isOk

/-- The written form of a whole number: decimal if it is signed, and otherwise hexadecimal. -/
def shownWhole (cs : List Char) : String :=
  let t : Text := (cs.filter (· != '_')).map .char
  match Numeral.readInt t, Numeral.readNat Decimal.maxWord t with
  | .ok n, _ => Decimal.ofInt n.toInt
  | _, .ok n => "0x" ++ String.ofList (Nat.toDigits 16 n)
  | _, _ => String.ofList cs

/-- Whether each underscore stands between two digits; `afterDigit` says what stands before the
    text. -/
def separatesDigits (afterDigit : Bool) : List Char → Bool
  | [] => true
  | '_' :: d :: t => afterDigit && isDigit d && separatesDigits true t
  | '_' :: [] => false
  | c :: t => separatesDigits (isDigit c) t

/-! ### Plain scalars -/

/-- The spellings of the null value. -/
def nullWords : List String := ["", "~", "null", "Null", "NULL"]

/-- The spellings of the truth values. -/
def boolWords : List String := ["true", "True", "TRUE", "false", "False", "FALSE"]

/-- The spellings of the floating-point values that are no numbers. -/
def floatWords : List String :=
  [".nan", ".NaN", ".NAN", ".inf", ".Inf", ".INF", "+.inf", "+.Inf", "+.INF", "-.inf", "-.Inf",
    "-.INF"]

/-- The tag of a plain scalar that may be a number: those start with a digit or a sign, and
    underscores in them do not count.  A timestamp counts as one only if `dates` says so. -/
def numberTag (dates : Bool) (cs : List Char) : Tag :=
  let digits := cs.filter (· != '_')
  if dates && isTimestamp cs then .timestamp
  else if isWhole digits then .int
  else if isFloat digits then .float
  else .str

/-- The tag that the text of a scalar stands for. -/
def tagOf (dates : Bool) (s : String) : Tag :=
  if nullWords.contains s then .null
  else if boolWords.contains s then .bool
  else if floatWords.contains s then .float
  else
    match s.toList with
    | [] => .null
    | c :: t =>
      if isDigit c || c == '+' || c == '-' then numberTag dates (c :: t)
      else if c == '.' && separatesDigits false (c :: t) && isFloat (c :: t.filter (· != '_')) then
        .float
      else .str

/-- The tag of a plain scalar; the sign of a merge has one of its own. -/
def plainTag (s : String) : Tag :=
  if s == "<<" then .merge else tagOf true s

/-- What a scalar with a tag is read as, or else what its text stands for, which does not fit the
    tag.  A signed whole number fits where a floating-point number is wanted. -/
def Tag.read (tag : Tag) (s : String) : Except Tag Tag :=
  match tag with
  | .null | .bool | .int | .float | .timestamp =>
    let found := tagOf (tag == .timestamp) s
    let isFloat := tag == .float && found == .int && isSigned (s.toList.filter (· != '_'))
    if found == tag || isFloat then .ok tag else .error found
  | tag => .ok tag

end Allotment.Yaml
