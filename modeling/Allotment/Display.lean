import Allotment.Text.Decimal

namespace Allotment

/-!
# Displayed values

`Display` gives the text of a value inside the text of an interval or of an error.
-/

universe u

/-- Values that have a text. -/
class Display (α : Type u) where
  /-- The text of a value. -/
  display : α → String

export Display (display)

/-- A 64-bit integer shows in decimal notation. -/
instance : Display Int64 where
  display v := Decimal.ofInt v.toInt

/-- A string shows as itself. -/
instance : Display String where
  display s := s

end Allotment
