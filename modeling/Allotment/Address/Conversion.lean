import Allotment.Address.Span
import Allotment.IntervalSet.Cell

namespace Allotment.Address

/-!
# Between ranges and spans of addresses

A range of addresses has cuts, a span has a first and a last address.  `ofSpan` and `ofNetwork` give
the half-open range of a span or a network; `toSpan` goes back, and `toSet` turns a whole set of
ranges into spans, family by family.
-/

/-- Why there is no range, or no span. -/
inductive ConversionError where
  | badSpan (s : AddressSpan)
  | badNetwork
  | emptyRange (r : Option (Range Address))
  | noFamily (r : Range Address)
  | noAddress (r : Range Address)
  | manyFamilies (r : Range Address)
  | absentSet

/-- The message of a conversion error. -/
def ConversionError.message : ConversionError → String
  | .badSpan s => "invalid range: invalid argument: ip range " ++ s.text
  | .badNetwork => "invalid range: invalid argument: prefix invalid Prefix"
  | .emptyRange r => "invalid range: invalid argument: " ++ Range.Optional.text r ++ " is empty"
  | .noFamily r => "invalid range: invalid argument: " ++ r.text ++ " has no address family"
  | .noAddress r => "invalid range: invalid argument: " ++ r.text ++ " holds no address"
  | .manyFamilies r => "invalid range: invalid argument: " ++ r.text ++ " spans address families"
  | .absentSet => "invalid argument: nil ip set"

/-- The half-open range of a span. -/
def ofSpan (s : AddressSpan) : Except ConversionError (Range Address) :=
  if s.isValid then .ok (Range.canonical domain ⟨.closed s.first s.last, order⟩)
  else .error (.badSpan s)

/-- The half-open range of a network. -/
def ofNetwork (p : Option Network) : Except ConversionError (Range Address) :=
  match p with
  | some p => ofSpan p.span
  | none => .error .badNetwork

/-- The first address of the family of `a`. -/
def familyFirst (a : Address) : Address :=
  if a.isV4 then firstV4 else firstV6

/-- The last address of the family of `a`. -/
def familyLast (a : Address) : Address :=
  if a.isV4 then lastV4 else lastV6

/-- The first address above a lower cut, if the cut stands beside a value. -/
def firstAbove (r : Range Address) : Cut Address → Except ConversionError (Option Address)
  | .below v => .ok (some v)
  | .above v =>
    match v.next? with
    | some w => .ok (some w)
    | none => .error (.noAddress r)
  | _ => .ok none

/-- The last address below an upper cut, if the cut stands beside a value. -/
def lastBelow (r : Range Address) : Cut Address → Except ConversionError (Option Address)
  | .above v => .ok (some v)
  | .below v =>
    match v.previous? with
    | some w => .ok (some w)
    | none => .error (.noAddress r)
  | _ => .ok none

/-- The span of a range.  An end without bound stops at the end of the family of the other end. -/
def toSpan (r : Option (Range Address)) : Except ConversionError AddressSpan := do
  match r with
  | none => throw (.emptyRange none)
  | some r =>
    if r.isEmpty then throw (.emptyRange (some r))
    if !r.lower.isBounded && !r.upper.isBounded then throw (.noFamily r)
    let first? ← firstAbove r r.lower
    let last? ← lastBelow r r.upper
    let first := first?.getD (familyFirst (last?.getD .unset))
    let last := last?.getD (familyLast first)
    let s := AddressSpan.between first last
    if s.isValid then pure s else throw (.manyFamilies r)

/-- The ranges of the two families. -/
def families : List (Interval Address) :=
  [⟨.bottom, .above lastV4⟩, ⟨.below firstV6, .top⟩]

/-- The spans of a range, one for each family of which it has a part. -/
def spansOf (r : Range Address) : Except ConversionError (List AddressSpan) :=
  let parts := (families.filterMap fun f => r.toInterval.meet? r.cmp f).filter fun p =>
    !p.isEmpty r.cmp
  parts.mapM fun p => toSpan (some ⟨p, r.cmp⟩)

/-- The addresses of a set of ranges. -/
def toSet (w : View Address) : Except ConversionError AddressSet := do
  let spans ← w.ranges.mapM spansOf
  pure (AddressSet.ofSpans spans.flatten)

/-- The networks that make up a set of ranges. -/
def networks (w : View Address) : Except ConversionError (List Network) := do
  let s ← toSet w
  pure s.networks

/-- The set of the addresses of some spans. -/
def setOfSpans (ss : List AddressSpan) : Except ConversionError (IntervalSet Address) := do
  let rs ← ss.mapM ofSpan
  pure (rs.foldl (fun s r => s.insert r.toInterval) (.empty order))

/-- The set of the addresses of an address set. -/
def ofSet (s : Option AddressSet) : Except ConversionError (IntervalSet Address) :=
  match s with
  | some ss => setOfSpans ss
  | none => .error .absentSet

end Allotment.Address
