namespace Allotment.Yaml

/-!
# Places and problems in a YAML document

* `Mark` — a place in a document;
* `Problem` — what can be wrong with a document, and `Problem.words` for it;
* `SyntaxError` — a problem with the places that belong to it, and its message.
-/

/-- A place in a document: its line and column, and the number of characters before it.  All are
    counted from zero. -/
structure Mark where
  line : Nat
  column : Nat
  index : Nat

namespace Mark

/-- The start of a document. -/
def origin : Mark :=
  ⟨0, 0, 0⟩

/-- The place after `n` characters of a line. -/
def skip (m : Mark) (n : Nat) : Mark :=
  ⟨m.line, m.column + n, m.index + n⟩

/-- The place after a character. -/
def next (m : Mark) : Mark :=
  m.skip 1

end Mark

/-- The greatest depth of collections inside each other. -/
def depthLimit : Nat := 10000

/-- What is wrong with a document. -/
inductive Problem where
  | controlCharacter
  | endInQuotes
  | documentInQuotes
  | unknownEscape
  | badEscapeDigits
  | badEscapeCode
  | tabInMargin
  | tabInBlockMargin
  | badBlockHeader
  | zeroBlockMargin
  | badStart
  | keyNotAllowed
  | valueNotAllowed
  | entryNotAllowed
  | missingColon
  | tooDeep
  | badAnchor
  | badTag
  | badTagEscape
  | badTagLead
  | badTagTrail
  | unclosedTag
  | badTagEnd
  | badTagHandle
  | missingDirective
  | badDirective
  | unknownDirective
  | badDirectiveEnd
  | missingVersion
  | badVersion
  | longVersion
  | missingBlank
  | expectedDocument
  | expectedContent
  | expectedKey
  | expectedDash
  | expectedListEnd
  | expectedMapEnd
  | secondVersion
  | otherVersion
  | secondTagHandle
  | undefinedTagHandle
  | unknownAnchor (name : String)

/-- A problem in words. -/
def Problem.words : Problem → String
  | .controlCharacter => "control characters are not allowed"
  | .endInQuotes => "found unexpected end of stream"
  | .documentInQuotes => "found unexpected document indicator"
  | .unknownEscape => "found unknown escape character"
  | .badEscapeDigits => "did not find expected hexdecimal number"
  | .badEscapeCode => "found invalid Unicode character escape code"
  | .tabInMargin => "found a tab character that violates indentation"
  | .tabInBlockMargin => "found a tab character where an indentation space is expected"
  | .badBlockHeader => "did not find expected comment or line break"
  | .zeroBlockMargin => "found an indentation indicator equal to 0"
  | .badStart => "found character that cannot start any token"
  | .keyNotAllowed => "mapping keys are not allowed in this context"
  | .valueNotAllowed => "mapping values are not allowed in this context"
  | .entryNotAllowed => "block sequence entries are not allowed in this context"
  | .missingColon => "could not find expected ':'"
  | .tooDeep => "exceeded max depth of " ++ Nat.repr depthLimit
  | .badAnchor => "did not find expected alphabetic or numeric character"
  | .badTag => "did not find expected tag URI"
  | .badTagEscape => "did not find URI escaped octet"
  | .badTagLead => "found an incorrect leading UTF-8 octet"
  | .badTagTrail => "found an incorrect trailing UTF-8 octet"
  | .unclosedTag => "did not find the expected '>'"
  | .badTagEnd => "did not find expected whitespace or line break"
  | .badTagHandle => "did not find expected '!'"
  | .missingDirective => "could not find expected directive name"
  | .badDirective => "found unexpected non-alphabetical character"
  | .unknownDirective => "found unknown directive name"
  | .badDirectiveEnd => "did not find expected comment or line break"
  | .missingVersion => "did not find expected version number"
  | .badVersion => "did not find expected digit or '.' character"
  | .longVersion => "found extremely long version number"
  | .missingBlank => "did not find expected whitespace"
  | .expectedDocument => "did not find expected <document start>"
  | .expectedContent => "did not find expected node content"
  | .expectedKey => "did not find expected key"
  | .expectedDash => "did not find expected '-' indicator"
  | .expectedListEnd => "did not find expected ',' or ']'"
  | .expectedMapEnd => "did not find expected ',' or '\x7d'"
  | .secondVersion => "found duplicate %YAML directive"
  | .otherVersion => "found incompatible YAML document"
  | .secondTagHandle => "found duplicate %TAG directive"
  | .undefinedTagHandle => "found undefined tag handle"
  | .unknownAnchor name => "unknown anchor '" ++ name ++ "' referenced"

/-- Whether a problem is one of the characters of a token, and not of the arrangement of tokens or
    of the document as a whole. -/
def Problem.isLexical : Problem → Bool
  | .controlCharacter | .expectedDocument | .expectedContent | .expectedKey | .expectedDash
  | .expectedListEnd | .expectedMapEnd | .secondVersion | .otherVersion | .secondTagHandle
  | .undefinedTagHandle | .unknownAnchor _ => false
  | _ => true

/-- A problem, the place where what has the problem starts, and the place where it was found. -/
structure SyntaxError where
  problem : Problem
  start : Mark
  found : Mark

/-- A problem of the document as a whole. -/
def SyntaxError.general (problem : Problem) : SyntaxError :=
  ⟨problem, .origin, .origin⟩

/-- The line that a message names, or zero if it names none: that of the start, or else that of the
    place where the problem was found.  The first line is not named.  Lines are counted from one for
    a lexical problem, and else from zero. -/
def SyntaxError.line (e : SyntaxError) : Nat :=
  let line := if e.start.line == 0 then e.found.line else e.start.line
  if line != 0 && e.problem.isLexical then line + 1 else line

/-- The message of a syntax error. -/
def SyntaxError.message (e : SyntaxError) : String :=
  let place := if e.line == 0 then "" else "line " ++ Nat.repr e.line ++ ": "
  "yaml: " ++ place ++ e.problem.words

end Allotment.Yaml
