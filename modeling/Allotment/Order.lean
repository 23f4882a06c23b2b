namespace Allotment.Order

/-!
# Natural orders

The orders in which values are read unless another order is asked for.
-/

/-- The 64-bit integers by value. -/
def int64 (a b : Int64) : Ordering :=
  compare a.toInt b.toInt

/-- Strings by code point, which is also the order of their UTF-8 bytes. -/
def string (a b : String) : Ordering :=
  compare a b

end Allotment.Order
