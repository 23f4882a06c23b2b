import Allotment.Order
import Allotment.Pool.Basic

namespace Allotment

/-!
# VXLAN network ids

A pool of 24-bit VXLAN network identifiers, from an offset up to a limit.
-/

/-- A pool of network identifiers; nothing speaks against claiming any of them. -/
abbrev VniPool := Pool Int64 Empty

namespace VniPool

/-- The greatest network identifier. -/
def maxVni : Int64 := 16777215

/-- Why there is no such pool. -/
inductive CreateError where
  | outside (offset limit : Int64)
  | pool (e : Allotment.CreateError Int64)

/-- The message of a pool that could not be created. -/
def CreateError.message : CreateError → String
  | .outside a b =>
    "vni range [" ++ display a ++ "‥" ++ display b ++ ") does not fit in [0‥" ++ display maxVni ++
      "]"
  | .pool e => e.message

/-- The pool of the identifiers from `offset` up to, but not including, `limit`. -/
def create (offset limit : Int64) : Except CreateError VniPool :=
  if offset.toInt < 0 || maxVni.toInt + 1 < limit.toInt then .error (.outside offset limit)
  else
    match Pool.create (.ofString "vxlan") (some ⟨.closedOpen offset limit, Order.int64⟩)
        (some .int64) (fun _ => none) [] with
    | .ok (p, _) => .ok p
    | .error e => .error (.pool e)

end VniPool

end Allotment
