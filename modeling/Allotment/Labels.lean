import Allotment.Text.Decimal

namespace Allotment

/-!
# Labels and selectors

Labels are names with values, kept in the order of the names, each name once.  A selector chooses
entries by their labels: it is a list of requirements that must all hold.
-/

/-- Names with their values, in the order of the names. -/
structure Labels where
  pairs : List (Text × Text)
deriving DecidableEq

namespace Labels

/-- No labels. -/
def none : Labels :=
  ⟨[]⟩

/-- Gives a name a value in a sorted list of names. -/
def setIn (name value : Text) : List (Text × Text) → List (Text × Text)
  | [] => [(name, value)]
  | p :: ps =>
    match name.compareBytes p.1 with
    | .lt => (name, value) :: p :: ps
    | .eq => (name, value) :: ps
    | .gt => p :: setIn name value ps

/-- The labels given by a list, of which a later value for a name replaces an earlier one. -/
def ofList (ps : List (Text × Text)) : Labels :=
  ⟨ps.foldl (fun l p => setIn p.1 p.2 l) []⟩

/-- The labels given by a list of strings. -/
def ofStrings (ps : List (String × String)) : Labels :=
  ofList (ps.map fun p => (.ofString p.1, .ofString p.2))

/-- The value of a name. -/
def get? (l : Labels) (name : Text) : Option Text :=
  l.pairs.lookup name

/-- The text of labels: `name=value`, with commas between.  These pieces are in the order of their
    own texts, in which `a1=2` comes before `a=1`. -/
def text (l : Labels) : Text :=
  let pieces := l.pairs.map fun p => p.1 ++ .char '=' :: p.2
  [.char ','].intercalate (pieces.mergeSort fun s t => (Text.compareBytes s t).isLE)

end Labels

/-- A condition on the value of one name. -/
inductive Requirement where
  | isIn (name : Text) (values : List Text)
  | isNotIn (name : Text) (values : List Text)
  | isPresent (name : Text)
  | isAbsent (name : Text)
  | isGreater (name : Text) (values : List Text)
  | isLess (name : Text) (values : List Text)

namespace Requirement

/-- The number that a label's value stands for. -/
def number? (value : Text) : Option Int :=
  (Decimal.readInt value).toOption.map Int64.toInt

/-- Whether a name has a number that compares with the one number of a list. -/
def comparesWith (test : Int → Int → Bool) (l : Labels) (name : Text) (values : List Text) : Bool :=
  match (l.get? name).bind number?, values.map number? with
  | some n, [some m] => test n m
  | _, _ => false

/-- Whether labels meet a requirement.  A requirement to differ is met by labels without the
    name. -/
def isMetBy (l : Labels) : Requirement → Bool
  | .isIn name values => (l.get? name).any fun v => values.contains v
  | .isNotIn name values => (l.get? name).all fun v => !values.contains v
  | .isPresent name => (l.get? name).isSome
  | .isAbsent name => (l.get? name).isNone
  | .isGreater name values => comparesWith (fun n m => m < n) l name values
  | .isLess name values => comparesWith (fun n m => n < m) l name values

end Requirement

/-- A choice of entries by their labels. -/
inductive Selector where
  | nothing
  | all (requirements : List Requirement)

/-- Whether a selector chooses labels. -/
def Selector.chooses (l : Labels) : Selector → Bool
  | .nothing => false
  | .all rs => rs.all fun r => r.isMetBy l

end Allotment
