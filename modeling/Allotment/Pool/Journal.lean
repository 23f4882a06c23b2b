import Allotment.Pool.Basic

namespace Allotment.Event

/-!
# Journal lines

A journal line shows an event as a list of keys with quoted values, after the name of the journal.
-/

universe u

variable {α : Type u} [Display α]

/-- A key with a quoted value. -/
def pair (key : String) (value : Text) : String :=
  Text.quotedString key ++ "=" ++ value.quoted

/-- What happened, in one word. -/
def word : Event α → String
  | .claimed _ _ => "claimed"
  | .released _ => "released"
  | .relabelled _ _ => "updated"

/-- The range of an event and its labels, if it has any. -/
def details : Event α → List (String × Text)
  | .claimed r l => [("range", .ofString r.text), ("labels", l.text)]
  | .released r => [("range", .ofString r.text)]
  | .relabelled r l => [("range", .ofString r.text), ("labels", l.text)]

/-- The line of an event; `context` says where it happened. -/
def line (context : List (String × Text)) (e : Event α) : String :=
  let pairs := ("msg", .ofString e.word) :: context ++ e.details
  "rangetable: \"level\"=1 " ++ " ".intercalate (pairs.map fun p => pair p.1 p.2)

end Allotment.Event

namespace Allotment.Pool

universe u

/-- The lines of a pool's journal; `context` is what is said before the pool's name. -/
def lines {α ρ : Type u} [Display α] (context : List (String × Text)) (p : Pool α ρ) :
    List String :=
  p.journal.map fun e => e.line (context ++ [("table", p.name)])

end Allotment.Pool
