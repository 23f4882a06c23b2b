import Allotment.Text.Utf8
import Allotment.Yaml.Scalar.Quoted
import Allotment.Yaml.Token

namespace Allotment.Yaml

/-!
# Anchors, tags and directives

* `readName` — the name of an anchor or an alias;
* `readTag` — the tag of a node.  The bytes of a character in a tag can be written as escapes;
* `readDirective` — a directive in front of a document.
-/

open Yaml.Reading

/-! ### Names -/

/-- Reads the name after the indicator of an anchor or an alias. -/
def readName : Reading String := do
  let start ← mark
  skip
  let name ← takeWhile isNameChar
  let c ← next
  if name.isEmpty || !(endsWord c || "?:,]\x7d%@\x60".toList.contains c) then fail .badAnchor start
  pure (String.ofList name)

/-! ### Tags -/

/-- Whether a character may stand in a tag. -/
def isTagChar (c : Char) : Bool :=
  isNameChar c || ";/?:@&=+$,.!~*'()[]%".toList.contains c

/-- Reads an escaped byte in what starts at `start`: a percent sign and two hexadecimal digits. -/
def readEscapedByte (start : Mark) : Reading Nat := do
  ensure 3
  match (← next) == '%', hexNumber? [← look 1, ← look 2] with
  | true, some n => pure n
  | _, _ => fail .badTagEscape start

/-- Reads the escaped bytes after the first one of a character. -/
def readTrailing (start : Mark) : Nat → Reading (List UInt8)
  | 0 => pure []
  | n + 1 => do
    let byte ← readEscapedByte start
    if byte / 64 != 2 then fail .badTagTrail start
    skipMany 3
    pure (byte.toUInt8 :: (← readTrailing start n))

/-- Reads the escaped bytes of a character. -/
def readEscapedBytes (start : Mark) : Reading (List UInt8) := do
  let byte ← readEscapedByte start
  match Utf8.width? byte.toUInt8 with
  | none => fail .badTagLead start
  | some width =>
    skipMany 3
    pure (byte.toUInt8 :: (← readTrailing start (width - 1)))

/-- Reads the characters of a tag after those of `read`, which has the last one first; `fuel` bounds
    their number. -/
def tagFrom (start : Mark) (fuel : Nat) (read : List Char) : Reading (List Char) :=
  match fuel with
  | 0 => pure read.reverse
  | fuel + 1 => do
    ensure 1
    let c ← next
    if c == '%' then
      let bytes ← readEscapedBytes start
      tagFrom start fuel ((Utf8.decode bytes).map Glyph.toChar |>.reverse |>.append read)
    else if isTagChar c then
      skip
      tagFrom start fuel (c :: read)
    else pure read.reverse

/-- Reads the characters of a tag after `front`, which was read before and loses its first
    character. -/
def readTagChars (start : Mark) (front : String) : Reading String := do
  let cs ← tagFrom start (← bound) []
  if front.isEmpty && cs.isEmpty then fail .badTag start
  pure (String.ofList (front.toList.drop 1 ++ cs))

/-- Reads the handle at the front of a tag: an exclamation mark, or a name between two. -/
def readHandle (start : Mark) : Reading String := do
  ensure 1
  if (← next) != '!' then fail .badTagHandle start
  skip
  let name ← takeWhile isNameChar
  if (← next) == '!' then
    skip
    pure ("!" ++ String.ofList name ++ "!")
  else pure ("!" ++ String.ofList name)

/-- Reads a tag between angle brackets. -/
def readVerbatimTag (start : Mark) : Reading TokenKind := do
  skipMany 2
  let suffix ← readTagChars start ""
  if (← next) != '>' then fail .unclosedTag start
  skip
  pure (.tag "" suffix)

/-- Reads a tag with a handle, or one whose handle is a lone exclamation mark. -/
def readHandledTag (start : Mark) : Reading TokenKind := do
  let handle ← readHandle start
  if 1 < handle.length && handle.endsWith "!" then pure (.tag handle (← readTagChars start ""))
  else
    let suffix ← readTagChars start handle
    pure (if suffix.isEmpty then .tag "" "!" else .tag "!" suffix)

/-- Reads a tag. -/
def readTag : Reading TokenKind := do
  let start ← mark
  ensure 2
  let kind ← if (← look 1) == '<' then readVerbatimTag start else readHandledTag start
  ensure 1
  if !endsWord (← next) then fail .badTagEnd start
  pure kind

/-! ### Directives -/

/-- Reads on in a number of a version, which is `n` so far and can have `left` more digits. -/
def versionFrom (start : Mark) : Nat → Nat → Reading Nat
  | 0, n => do
    ensure 1
    if (← next).isDigit then fail .longVersion start
    pure n
  | left + 1, n => do
    ensure 1
    let c ← next
    if !c.isDigit then return n
    skip
    versionFrom start left (n * 10 + (c.toNat - '0'.toNat))

/-- Reads one number of a version, which has one or two digits. -/
def readVersionNumber (start : Mark) : Reading Nat := do
  ensure 1
  if !(← next).isDigit then fail .missingVersion start
  versionFrom start 2 0

/-- Reads the version that a document is written in. -/
def readVersion (start : Mark) : Reading TokenKind := do
  skipWhile isBlank
  let major ← readVersionNumber start
  if (← next) != '.' then fail .badVersion start
  skip
  pure (.version major (← readVersionNumber start))

/-- Reads a handle for tags and what it stands for. -/
def readTagHandle (start : Mark) : Reading TokenKind := do
  skipWhile isBlank
  let handle ← readHandle start
  if handle != "!" && !handle.endsWith "!" then fail .badTagHandle start
  ensure 1
  if !isBlank (← next) then fail .missingBlank start
  skipWhile isBlank
  let stem ← readTagChars start ""
  ensure 1
  if !endsWord (← next) then fail .badTagEnd start
  pure (.tagHandle handle stem)

/-- Reads a directive with its line end. -/
def readDirective : Reading TokenKind := do
  let start ← mark
  skip
  let name ← takeWhile isNameChar
  if name.isEmpty then fail .missingDirective start
  if !endsWord (← next) then fail .badDirective start
  let kind ← match String.ofList name with
    | "YAML" => readVersion start
    | "TAG" => readTagHandle start
    | _ => fail .unknownDirective start
  skipWhile isBlank
  if (← next) == '#' then skipWhile fun c => !endsLine c
  if !endsLine (← next) then fail .badDirectiveEnd start
  skipLineEnd
  pure kind

end Allotment.Yaml
