import Allotment.Config.Decoding

namespace Allotment.Config

/-!
# The keys of a map

When maps are merged into a map, its own keys are read once more, as what they are, and entries of
the merged maps with the same names do not count.  A key that is a collection cannot be compared
with others, and ends the decoding.

* `decodeValue` — reads a node as what it is;
* `namesOf` — the names of the entries of a map.
-/

open Yaml (Node)

/-- Decoding where keys may be compared.  If they are, those before are known. -/
abbrev Keying := StateT (Option (List Value)) Decoding

namespace Keying

/-- Decodes something whose keys are not compared. -/
def aside {α : Type} (x : Keying α) : Keying α := do
  pure (← x none).1

/-- Takes a key, unless it is compared and one before is the same.  Gives whether the key counts.
    Collections cannot be keys. -/
def take (key : Value) : Keying Bool := do
  match ← get, key with
  | none, .list _ | none, .map _ _ => throw (.collectionKey key)
  | some _, .list _ | some _, .map _ _ => throw (.incomparableKey key)
  | none, _ => pure true
  | some keys, key =>
    if keys.any key.isSameKey then pure false
    else
      set (some (key :: keys))
      pure true

end Keying

/-! ### Merges -/

/-- The nodes that a value names for a merge. -/
def mergedNodes : Node → Decoding (List Node)
  | .list _ _ items => pure items
  | .scalar _ _ _ => throw .badMerge
  | n => pure [n]

/-- Makes sure that a node to be merged is a map. -/
def checkMerged (n : Node) : Decoding Unit := do
  match ← target n with
  | .map _ _ _ => pure ()
  | _ => throw .badMerge

/-- The value of the merge key of a map. -/
def mergeOf? (entries : List (Node × Node)) : Option Node :=
  (entries.find? fun e => e.1.isMergeKey).map Prod.snd

/-! ### Values -/

/-- The value of a scalar. -/
def scalarValue (tag : Yaml.Tag) (s : String) : Decoding Value := do
  match ← scalarText tag s, tag with
  | none, _ => pure .null
  | some _, .bool => pure (.plain s.toLower)
  | some _, .int => pure (.plain (Yaml.shownWhole s.toList))
  | some _, .float => pure (.plain s)
  | some _, .timestamp => pure (.plain s)
  | some t, _ => pure (.text t)

/-- Whether the keys of a map are all texts. -/
def hasTextKeys (entries : List (Node × Node)) : Decoding Bool :=
  entries.allM fun e => do
    let tag := tagOf (← target e.1)
    pure (tag == .str || tag == .merge)

/-- Reads a key that is a text. -/
def decodeTextKey (k : Node) : Decoding (Option Value) := do
  match ← decodeText k with
  | .text t => pure (some (.text t))
  | _ => pure none

/-- How a node is read.  A map that is merged into another one is given whether the keys of that one
    are all texts. -/
abbrev ReadNode := Option Bool → Node → Keying (Option Value)

/-- Reads an entry of a map; merge keys and keys that are taken do not count. -/
def decodeEntry (decode : ReadNode) (isNamed : Bool) (e : Node × Node) :
    Keying (Option (Value × Value)) := do
  if e.1.isMergeKey then pure none
  else
    match ← if isNamed then liftM (decodeTextKey e.1) else Keying.aside (decode none e.1) with
    | none => pure none
    | some key =>
      if ← Keying.take key then pure ((← Keying.aside (decode none e.2)).map fun v => (key, v))
      else pure none

/-- Takes the keys of a map. -/
def takeKeys (decode : ReadNode) (entries : List (Node × Node)) : Keying Unit :=
  entries.forM fun e => do
    if let some key ← decode none e.1 then discard (Keying.take key)

/-- Reads a map that is merged into another one, and gives its entries that count. -/
def decodeMerged (decode : ReadNode) (isNamed : Bool) (n : Node) :
    Keying (List (Value × Value)) := do
  checkMerged n
  match ← decode (some isNamed) n with
  | some (.map _ entries) => pure entries
  | _ => pure []

/-- Reads the maps that are merged into another one with some entries. -/
def decodeMerge (decode : ReadNode) (isNamed : Bool) (entries : List (Node × Node)) (merge : Node) :
    Keying (List (Value × Value)) := do
  let keys ← get
  if keys.isNone then
    set (some ([] : List Value))
    takeKeys decode entries
  let values ← (← mergedNodes merge).mapM (decodeMerged decode isNamed)
  if keys.isNone then set (none : Option (List Value))
  pure values.flatten

/-- Reads a node that is no alias, given what reads the nodes in it.  A map with repeated keys is
    left out. -/
def decodeNode (decode : ReadNode) (isNamed : Option Bool) : Node → Keying (Option Value)
  | .scalar _ tag s => do pure (some (← scalarValue tag s))
  | .list _ _ items => do pure (some (.list ((← items.mapM (decode none)).filterMap id)))
  | .map _ _ entries => do
    match repeatedKeys (entries.map Prod.fst) with
    | [] =>
      let isNamed ← match isNamed with
        | some b => pure b
        | none => hasTextKeys entries
      let values ← entries.mapM (decodeEntry decode isNamed)
      let merged ← match mergeOf? entries with
        | some merge => decodeMerge decode isNamed entries merge
        | none => pure []
      pure (some (.map isNamed (values.filterMap id ++ merged)))
    | repeated =>
      report repeated
      pure none
  | .aliasOf _ _ _ _ => pure none

/-- Reads a node as what it is; `fuel` bounds the depth. -/
def decodeValue (fuel : Nat) : ReadNode := fun isNamed n =>
  match fuel with
  | 0 => pure none
  | fuel + 1 => fun keys => follow n fun n => decodeNode (decodeValue fuel) isNamed n keys

/-- A bound on how deeply nodes can be read inside each other. -/
def depthBound : Decoding Nat := do
  pure (((← read).aliases + 1) * (2 * Yaml.depthLimit + 2))

/-- The names of the entries of a map. -/
def namesOf (entries : List (Node × Node)) : Decoding (List Text) := do
  let (_, keys) ← (takeKeys (decodeValue (← depthBound)) entries).run (some [])
  pure ((keys.getD []).filterMap Value.text?)

end Allotment.Config
