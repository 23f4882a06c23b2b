import Allotment.Yaml.Tag

namespace Allotment.Yaml

/-!
# Nodes of a YAML document

A node is a scalar, a list or a map, with its tag, or an alias of a node elsewhere in the document.
It knows the line where it starts, counted from one.  A node may contain an alias of itself, so a
document keeps the nodes with anchors beside its root.
-/

/-- A value in a document. -/
inductive Node where
  | scalar (line : Nat) (tag : Tag) (text : String)
  | list (line : Nat) (tag : Tag) (items : List Node)
  | map (line : Nat) (tag : Tag) (entries : List (Node × Node))
  /-- Another node by its name, with the number of aliases before this one, and the number of
      anchors before that of the node. -/
  | aliasOf (line : Nat) (name : String) (site anchor : Nat)

namespace Node

/-- The line where a node starts. -/
def line : Node → Nat
  | .scalar line _ _ => line
  | .list line _ _ => line
  | .map line _ _ => line
  | .aliasOf line _ _ _ => line

/-- The text of a scalar or the name of an alias; other nodes have none. -/
def text : Node → String
  | .scalar _ _ text => text
  | .list _ _ _ => ""
  | .map _ _ _ => ""
  | .aliasOf _ name _ _ => name

/-- A plain scalar without text, which stands where a value was left out. -/
def absent (line : Nat) : Node :=
  .scalar line .null ""

/-- Whether a node is the key under which a map names the maps to merge into it. -/
def isMergeKey : Node → Bool
  | .scalar _ tag text => tag == .merge && text == "<<"
  | _ => false

end Node

/-- A document: its root, and the nodes that have an anchor in the order of the anchors. -/
structure Document where
  root : Node
  anchored : Array Node
  /-- The number of aliases. -/
  aliases : Nat

end Allotment.Yaml
