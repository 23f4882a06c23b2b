import Allotment.Config.Key

namespace Allotment.Config

/-!
# Reading configurations

`Config.parse` reads a configuration from a YAML document.  The null value stands for an empty text,
list or map, and a null item of a list is left out.

A map may name maps to merge into it.  Their entries count after its own, and only where no entry
before has the same name: `readMap`.
-/

open Yaml (Node)

/-! ### Maps -/

/-- Reads an entry of a map into a value, given its key, its name and its value.  Also given is
    whether the map is merged into another one, and the names of the entries before. -/
abbrev Entry (α : Type) := Bool → List Text → α → Node → Text → Node → Decoding α

/-- Reads the entries of a map one by one into a value.  When the map is merged into another one,
    `names` are those that do not count any more; `done` are the names of the entries before. -/
def readEntries {α : Type} (entry : Entry α) (names : Option (List Text)) (done : List Text)
    (a : α) : List (Node × Node) → Decoding (α × Option (List Text))
  | [] => pure (a, names)
  | (k, v) :: rest => do
    if k.isMergeKey then readEntries entry names done a rest
    else
      match ← decodeText k with
      | .text name =>
        if names.any fun ns => ns.contains name then readEntries entry names done a rest
        else
          let a ← entry names.isSome done a k name v
          readEntries entry (names.map fun ns => name :: ns) (name :: done) a rest
      | _ => readEntries entry names done a rest

/-- Reads maps into a value, one by one; each is read by `readInto`. -/
def mergeAll {α : Type} (readInto : List Text → α → List (Node × Node) → Decoding (α × List Text))
    (names : List Text) (a : α) : List Node → Decoding (α × List Text)
  | [] => pure (a, names)
  | n :: rest => do
    checkMerged n
    let (a, names) ← follow n fun
      | .map _ _ entries => readInto names a entries
      | _ => pure (a, names)
    mergeAll readInto names a rest

/-- What comes of reading a map into a value. -/
structure MapResult (α : Type) where
  value : α
  /-- The names that do not count any more in maps that are merged into another one. -/
  names : Option (List Text)
  /-- Whether the map has no repeated keys; otherwise it is left out. -/
  isGood : Bool

/-- Reads a map into a value, and then the maps that are merged into it.  The first ones count, and
    the map itself counts before them.  When the map is merged into another one, `names` are those
    that do not count any more.  `fuel` bounds how often a merged map names others. -/
def readMap {α : Type} (entry : Entry α) (fuel : Nat) (names : Option (List Text)) (a : α)
    (entries : List (Node × Node)) : Decoding (MapResult α) :=
  match fuel with
  | 0 => pure ⟨a, names, true⟩
  | fuel + 1 => do
    match repeatedKeys (entries.map Prod.fst) with
    | [] =>
      let (a, names) ← readEntries entry names [] a entries
      match mergeOf? entries with
      | none => pure ⟨a, names, true⟩
      | some merge =>
        let inner ← match names with
          | some ns => pure ns
          | none => namesOf entries
        let readInto (ns : List Text) (a : α) (es : List (Node × Node)) :
            Decoding (α × List Text) := do
          let r ← readMap entry fuel (some ns) a es
          pure (r.value, r.names.getD ns)
        let (a, inner) ← mergeAll readInto inner a (← mergedNodes merge)
        pure ⟨a, names.map fun _ => inner, true⟩
    | repeated =>
      report repeated
      pure ⟨a, names, false⟩

/-- Reads a map; a map with repeated keys is left out. -/
def decodeMap {α : Type} (shape : Shape) (initial : α) (entry : Entry α) (n : Node) :
    Decoding (Option α) :=
  follow n fun
    | .map _ _ entries => do
      let r ← readMap entry (← depthBound) none initial entries
      pure (if r.isGood then some r.value else none)
    | n => do
      refuse shape n
      pure none

/-- Reads a map with known fields, each of which can be set once in a map. -/
def decodeFields {α : Type} (shape : Shape) (initial : α)
    (field : String → Option (α → Node → Decoding α)) : Node → Decoding (Option α) :=
  decodeMap shape initial fun _ done a k name v => do
    match field name.toString with
    | none =>
      report [.unknownField k.line name shape]
      pure a
    | some set =>
      if done.contains name then
        report [.repeatedField k.line name shape]
        pure a
      else set a v

/-! ### Configurations -/

/-- Reads a list of values, of which some may be left out. -/
def decodeList {α : Type} (shape : Shape) (item : Node → Decoding (Option α)) (n : Node) :
    Decoding (List α) :=
  follow n fun
    | .list _ _ items => do pure ((← items.mapM item).filterMap id)
    | n => do
      refuse shape n
      pure []

/-- Reads labels; a null value is an empty text, unless a merged map would replace a value by it. -/
def decodeLabels (n : Node) : Decoding Labels := do
  let entry : Entry (List (Text × Text)) := fun isMerged _ ps _ name v => do
    match ← decodeText v with
    | .text value => pure (ps ++ [(name, value)])
    | .null => pure (if isMerged && (ps.lookup name).isSome then ps else ps ++ [(name, [])])
    | .refused => pure ps
  pure (.ofList ((← decodeMap .labels [] entry n).getD []))

/-- Reads a text field; a null value leaves it as it is. -/
def decodeTextField {α : Type} (set : α → Text → α) (a : α) (v : Node) : Decoding α := do
  match ← decodeText v with
  | .text t => pure (set a t)
  | _ => pure a

/-- Reads a claim. -/
def decodeClaim : Node → Decoding (Option ClaimConfig) :=
  decodeFields .claim ⟨[], .none⟩ fun
    | "range" => some (decodeTextField fun c t => { c with range := t })
    | "labels" => some fun c v => do pure { c with labels := ← decodeLabels v }
    | _ => none

/-- Reads a pool. -/
def decodePool : Node → Decoding (Option PoolConfig) :=
  decodeFields .pool ⟨[], [], [], []⟩ fun
    | "name" => some (decodeTextField fun p t => { p with name := t })
    | "kind" => some (decodeTextField fun p t => { p with kind := t })
    | "range" => some (decodeTextField fun p t => { p with range := t })
    | "claims" => some fun p v => do pure { p with claims := ← decodeList .claims decodeClaim v }
    | _ => none

/-- Reads a configuration. -/
def decode (n : Node) : Decoding Config := do
  let c ← decodeFields .config (Config.mk []) (fun
    | "pools" => some fun c v => do pure { c with pools := ← decodeList .pools decodePool v }
    | _ => none) n
  pure (c.getD ⟨[]⟩)

/-! ### Documents -/

/-- Why a text is not a configuration. -/
inductive Error where
  | unreadable (e : Yaml.SyntaxError)
  | undecodable (e : Fatal)
  | misshapen (mismatches : List Mismatch)
  | invalid (problems : List Problem)

/-- The message of an error, with a line for each mismatch or problem. -/
def Error.message : Error → String
  | .unreadable e => e.message
  | .undecodable e => e.message
  | .misshapen ms => "yaml: unmarshal errors:\n  " ++ "\n  ".intercalate (ms.map Mismatch.message)
  | .invalid ps => "\n".intercalate (ps.map Problem.message)

/-- A configuration, unless something is wrong with it. -/
def validated (c : Config) : Except Error Config :=
  if c.problems.isEmpty then .ok c else .error (.invalid c.problems)

/-- Reads a configuration and looks for problems in it; without a document it has no pools. -/
def parse (s : String) : Except Error Config :=
  match Yaml.Document.parse s with
  | .error e => .error (.unreadable e)
  | .ok none => validated ⟨[]⟩
  | .ok (some d) =>
    match (decode d.root).run d |>.run .start with
    | .error e => .error (.undecodable e)
    | .ok (c, p) => if p.mismatches.isEmpty then validated c else .error (.misshapen p.mismatches)

end Allotment.Config
