import Allotment.Yaml.Problem

namespace Allotment.Yaml

/-!
# Tokens

A token is an indicator, a scalar, or a property of a node: an anchor, an alias or a tag.  Block
collections have no brackets; the tokens that start and end them come from the indentation.
-/

/-- What a token is. -/
inductive TokenKind where
  | streamStart
  | streamEnd
  | version (major minor : Nat)
  | tagHandle (handle stem : String)
  | documentStart
  | documentEnd
  | blockListStart
  | blockMapStart
  | blockEnd
  | flowListStart
  | flowListEnd
  | flowMapStart
  | flowMapEnd
  | blockEntry
  | flowEntry
  | key
  | value
  | aliasOf (name : String)
  | anchor (name : String)
  | tag (handle suffix : String)
  | scalar (isPlain : Bool) (text : String)
deriving DecidableEq

/-- Whether a token starts a block collection. -/
def TokenKind.startsBlock : TokenKind → Bool
  | .blockListStart => true
  | .blockMapStart => true
  | _ => false

/-- A token, where it starts and where it ends. -/
structure Token where
  kind : TokenKind
  start : Mark
  stop : Mark

end Allotment.Yaml
