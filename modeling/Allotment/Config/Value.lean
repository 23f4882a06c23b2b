import Allotment.Text.Quoted

namespace Allotment.Config

/-!
# Values of any kind

What a node of a document is when nothing is known about it.  `Value.shown` writes it for messages.
-/

/-- A value of any kind. -/
inductive Value where
  | null
  /-- A number, a truth value or a timestamp. -/
  | plain (shown : String)
  | text (t : Text)
  | list (items : List Value)
  /-- A map, and whether its keys are all texts. -/
  | map (isNamed : Bool) (entries : List (Value × Value))

namespace Value

/-- The name of the kind of values that a collection belongs to. -/
def kindName : Value → String
  | .list _ => "[]interface \x7b\x7d"
  | .map true _ => "map[string]interface \x7b\x7d"
  | .map false _ => "map[interface \x7b\x7d]interface \x7b\x7d"
  | _ => "interface \x7b\x7d"

/-- Whether two values are the same key; collections are no keys. -/
def isSameKey : Value → Value → Bool
  | .null, .null => true
  | .plain s, .plain t => s == t
  | .text s, .text t => s == t
  | _, _ => false

/-- The text of a value that is one. -/
def text? : Value → Option Text
  | .text t => some t
  | _ => none

/-- The order of the keys of a map in its written form: the null value, then other values than
    texts, then the texts. -/
def isUpTo : Value → Value → Bool
  | .text s, .text t => (s.compareBytes t).isLE
  | .text _, _ => false
  | _, .null => false
  | _, _ => true

mutual

/-- The written form of a value. -/
def shown : Value → String
  | .null => "interface \x7b\x7d(nil)"
  | .plain s => s
  | .text t => t.quoted
  | .list items => "[]interface \x7b\x7d\x7b" ++ ", ".intercalate (shownItems items) ++ "\x7d"
  | .map isNamed entries =>
    let pairs := (shownEntries entries).mergeSort fun p q => p.1.isUpTo q.1
    kindName (.map isNamed []) ++ "\x7b" ++ ", ".intercalate (pairs.map Prod.snd) ++ "\x7d"

/-- The written forms of some values. -/
def shownItems : List Value → List String
  | [] => []
  | v :: vs => v.shown :: shownItems vs

/-- The keys of a map with the written forms of their entries. -/
def shownEntries : List (Value × Value) → List (Value × String)
  | [] => []
  | (k, v) :: es => (k, k.shown ++ ":" ++ v.shown) :: shownEntries es

end

end Value

end Allotment.Config
