import Allotment.Config.Basic
import Allotment.Config.Value
import Allotment.Text.Base64
import Allotment.Yaml.Parser

namespace Allotment.Config

/-!
# Decoding

Where a document does not have the shape of a configuration, decoding goes on, so that all
mismatches are reported at once:

* a value of the wrong kind is reported and left out;
* an unknown key is reported;
* a map with a repeated key is reported and left out.

Some errors end the decoding: `Fatal`.

An alias is read as the node that it stands for: `follow`.  That ends the decoding when an alias is
met while its own node is read, and when too much of the document is read through aliases.
-/

open Yaml (Node)

/-- What a value is read as. -/
inductive Shape where
  | config
  | pools
  | pool
  | claims
  | claim
  | labels
  | text
deriving DecidableEq

/-- The name of a shape. -/
def Shape.name : Shape → String
  | .config => "main.Config"
  | .pools => "[]main.PoolConfig"
  | .pool => "main.PoolConfig"
  | .claims => "[]main.ClaimConfig"
  | .claim => "main.ClaimConfig"
  | .labels => "map[string]string"
  | .text => "string"

/-- Where a document does not have the shape of a configuration. -/
inductive Mismatch where
  | wrongKind (node : Node) (shape : Shape)
  | unknownField (line : Nat) (field : Text) (shape : Shape)
  | repeatedField (line : Nat) (field : Text) (shape : Shape)
  | repeatedKey (line : Nat) (key : String) (firstLine : Nat)

/-- Why a document cannot be decoded any further. -/
inductive Fatal where
  | badMerge
  | badTag (found : Yaml.Tag) (text : String) (wanted : Yaml.Tag)
  | badBinary
  | endlessAlias (name : String)
  | tooManyAliases
  | collectionKey (key : Value)
  /-- A collection, where keys are compared. -/
  | incomparableKey (key : Value)

/-- The message of a fatal error. -/
def Fatal.message : Fatal → String
  | .badMerge => "yaml: map merge requires map or sequence of maps as the value"
  | .badTag found text wanted =>
    "yaml: cannot decode " ++ found.text ++ " `" ++ text ++ "` as a " ++ wanted.text
  | .badBinary => "yaml: !!binary value contains invalid base64 data"
  | .endlessAlias name => "yaml: anchor '" ++ name ++ "' value contains itself"
  | .tooManyAliases => "yaml: document contains excessive aliasing"
  | .collectionKey key => "yaml: invalid map key: " ++ key.shown
  | .incomparableKey key => "yaml: runtime error: hash of unhashable type " ++ key.kindName

/-- A scalar as it is shown in messages; of more than ten bytes only the first seven are shown. -/
def shownScalar (s : String) : String :=
  let t := Text.ofString s
  if 10 < t.byteLength then (t.takeBytes 7).toString ++ "..." else s

/-- A node with a tag as it is shown in messages: the tag and, unless it is that of a collection,
    the text. -/
def shownNode (tag : Yaml.Tag) (text : String) : String :=
  match tag with
  | .seq => tag.text ++ text
  | .map => tag.text ++ text
  | tag => tag.text ++ " `" ++ shownScalar text ++ "`"

/-- The tag of a node. -/
def tagOf : Node → Yaml.Tag
  | .scalar _ tag _ => tag
  | .list _ tag _ => tag
  | .map _ tag _ => tag
  | .aliasOf _ _ _ _ => .other ""

/-- The message of a mismatch. -/
def Mismatch.message : Mismatch → String
  | .wrongKind n shape =>
    "line " ++ Decimal.ofNat n.line ++ ": cannot unmarshal " ++ shownNode (tagOf n) n.text ++
      " into " ++ shape.name
  | .unknownField line field shape =>
    "line " ++ Decimal.ofNat line ++ ": field " ++ field.toString ++ " not found in type " ++
      shape.name
  | .repeatedField line field shape =>
    "line " ++ Decimal.ofNat line ++ ": field " ++ field.toString ++ " already set in type " ++
      shape.name
  | .repeatedKey line key firstLine =>
    "line " ++ Decimal.ofNat line ++ ": mapping key " ++ Text.quotedString key ++
      " already defined at line " ++ Decimal.ofNat firstLine

/-! ### Progress -/

/-- What is known while a document is decoded. -/
structure Progress where
  /-- The mismatches so far. -/
  mismatches : List Mismatch
  /-- The number of values read so far. -/
  visits : Nat
  /-- How many of them were read through an alias. -/
  aliased : Nat
  /-- The aliases whose nodes are being read, the innermost one first. -/
  active : List Nat

namespace Progress

/-- The progress when the document itself was visited. -/
def start : Progress :=
  ⟨[], 1, 0, []⟩

/-- The progress after one more value. -/
def visit (p : Progress) : Progress :=
  { p with visits := p.visits + 1, aliased := p.aliased + if p.active.isEmpty then 0 else 1 }

/-- Whether too many values were read through aliases.  Up to 400000 values the limit is 99 in a
    hundred, and it falls evenly to ten in a hundred for four million values. -/
def isExcessive (p : Progress) : Bool :=
  100 < p.aliased && 1000 < p.visits &&
    if p.visits ≤ 400000 then p.visits * 99 < p.aliased * 100
    else if 4000000 ≤ p.visits then p.visits * 10 < p.aliased * 100
    else
      p.visits * (99 * 3600000 - 89 * (p.visits - 400000)) < p.aliased * 100 * 3600000

end Progress

/-- Decoding goes on past mismatches, which are collected, and ends at a fatal error. -/
abbrev Decoding := ReaderT Yaml.Document (StateT Progress (Except Fatal))

/-- Collects mismatches. -/
def report (ms : List Mismatch) : Decoding Unit :=
  modify fun p => { p with mismatches := p.mismatches ++ ms }

/-- Counts a value. -/
def visit : Decoding Unit := do
  let p := (← get).visit
  if p.isExcessive then throw .tooManyAliases
  set p

/-- The node with an anchor. -/
def anchored (anchor : Nat) : Decoding Node := do
  pure ((← read).anchored.getD anchor (.absent 0))

/-- A node, or the node that an alias stands for. -/
def target : Node → Decoding Node
  | .aliasOf _ _ _ anchor => anchored anchor
  | n => pure n

/-- Reads a node, or the node that an alias stands for. -/
def follow {α : Type} (n : Node) (decode : Node → Decoding α) : Decoding α := do
  visit
  match n with
  | .aliasOf _ name site anchor =>
    if (← get).active.contains site then throw (.endlessAlias name)
    modify fun p => { p with active := site :: p.active }
    visit
    let a ← decode (← anchored anchor)
    modify fun p => { p with active := p.active.tail }
    pure a
  | n => decode n

/-! ### Scalars -/

/-- What a scalar is read as; the null value has no text, and binary data is written in base 64. -/
def scalarText (tag : Yaml.Tag) (s : String) : Decoding (Option Text) :=
  match tag.read s with
  | .error found => throw (.badTag found s tag)
  | .ok .null => pure none
  | .ok .binary =>
    match Base64.decode? s.toList with
    | none => throw .badBinary
    | some bytes => pure (some (Utf8.decode bytes))
  | .ok _ => pure (some (.ofString s))

/-- Whether two nodes are the same kind of node with the same text. -/
def sameKey : Node → Node → Bool
  | .scalar _ _ s, .scalar _ _ t => s == t
  | .list _ _ _, .list _ _ _ => true
  | .map _ _ _, .map _ _ _ => true
  | .aliasOf _ s _ _, .aliasOf _ t _ _ => s == t
  | _, _ => false

/-- The repetitions of keys, for each key in turn. -/
def repeatedKeys : List Node → List Mismatch
  | [] => []
  | k :: ks =>
    (ks.filter (sameKey k)).map (fun l => .repeatedKey l.line l.text k.line) ++ repeatedKeys ks

/-- The report on a node that is not of the wanted shape; the repeated keys of a map come first, and
    a null value fits every shape. -/
def refuse (shape : Shape) (n : Node) : Decoding Unit := do
  match n with
  | .map _ _ entries =>
    match repeatedKeys (entries.map Prod.fst) with
    | [] => report [.wrongKind n shape]
    | repeated => report repeated
  | .scalar _ tag text =>
    if (← scalarText tag text).isSome then report [.wrongKind n shape]
  | n => report [.wrongKind n shape]

/-- What is read where a text is wanted. -/
inductive TextValue where
  | text (t : Text)
  | null
  | refused

/-- Reads a text. -/
def decodeText (n : Node) : Decoding TextValue :=
  follow n fun
    | .scalar _ tag s => do
      match ← scalarText tag s with
      | some t => pure (.text t)
      | none => pure .null
    | n => do
      refuse .text n
      pure .refused

end Allotment.Config
