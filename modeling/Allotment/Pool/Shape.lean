namespace Allotment

/-!
# Searching a list along a tree

A list in increasing order is searched along a tree whose nodes group its elements.  `Shape` is such
a tree without the elements: a leaf holds some of them, and an inner node holds those between its
children.  All leaves have the same depth, and the number of elements of a node stays between two
limits, the root apart.

* `Probe` — compares what is looked for with elements of the list;
* `Shape.insert`, `Shape.remove` — find the place of an element to put in or to take out, and the
  shape after that;
* `Shape.last?`, `Shape.startingAt` — find the last element up to a probe, and the elements from it
  on.

When the elements are in the order of the probe, the shape has no effect on what is found.  When
they are not, what is found depends on the elements that the search meets.
-/

universe u

/-! ### Probes -/

/-- Compares what is looked for with the elements of a list. -/
structure Probe (β : Type u) where
  /-- Whether what is looked for comes before an element. -/
  isBefore : β → Bool
  /-- Whether an element comes before what is looked for. -/
  isAfter : β → Bool

/-- A place in a list. -/
inductive Spot where
  /-- The place of the element with `k` others before it. -/
  | taken (k : Nat)
  /-- The place after `k` elements. -/
  | between (k : Nat)

namespace Spot

/-- The number of elements before a place. -/
def start : Spot → Nat
  | .taken k => k
  | .between k => k

/-- The number of elements before a place and at it. -/
def stop : Spot → Nat
  | .taken k => k + 1
  | .between k => k

/-- A place in a list after `n` other elements. -/
def shift (n : Nat) : Spot → Spot
  | .taken k => .taken (n + k)
  | .between k => .between (n + k)

end Spot

namespace Probe

variable {β : Type u}

/-- The number of elements that stay before what is looked for, found by halving the list. -/
def place (q : Probe β) (xs : List β) : Nat :=
  match _h : xs.drop (xs.length / 2) with
  | [] => 0
  | x :: after =>
    if q.isBefore x then q.place (xs.take (xs.length / 2))
    else xs.length / 2 + 1 + q.place after
termination_by xs.length
decreasing_by
  all_goals
    have hlen := congrArg List.length _h
    simp only [List.length_drop, List.length_cons, List.length_take] at hlen ⊢
    omega

/-- The place of what is looked for: that of the last element before its own place, unless that
    element comes before it. -/
def find (q : Probe β) (xs : List β) : Spot :=
  let k := q.place xs
  match (xs.take k).getLast? with
  | some x => if q.isAfter x then .between k else .taken (k - 1)
  | none => .between k

/-- The place of what is looked for among `n` elements of a list after `o` others. -/
def findWithin (q : Probe β) (xs : List β) (o n : Nat) : Spot :=
  (q.find ((xs.drop o).take n)).shift o

end Probe

/-! ### Shapes -/

/-- How the elements of a list are grouped. -/
inductive Shape where
  | leaf (count : Nat)
  | inner (children : List Shape)

namespace Shape

/-- The greatest number of elements of a node. -/
def maxCount : Nat := 31

/-- The least number of elements of a node that is not the root. -/
def minCount : Nat := 15

/-- The number of elements of a node, its children apart. -/
def count : Shape → Nat
  | .leaf n => n
  | .inner cs => cs.length - 1

mutual

/-- The number of elements of a node and its children. -/
def size : Shape → Nat
  | .leaf n => n
  | .inner cs => sizeAll cs - 1

/-- The number of elements of some children, each with one element after it. -/
def sizeAll : List Shape → Nat
  | [] => 0
  | c :: cs => c.size + 1 + sizeAll cs

end

mutual

/-- The number of nodes below a node, down to a leaf. -/
def height : Shape → Nat
  | .leaf _ => 0
  | .inner cs => heightAll cs + 1

/-- The greatest height of some children. -/
def heightAll : List Shape → Nat
  | [] => 0
  | c :: cs => max c.height (heightAll cs)

end

/-- The numbers of elements before each child, when `o` are before the first one. -/
def starts (o : Nat) : List Shape → List Nat
  | [] => []
  | c :: cs => o :: starts (o + c.size + 1) cs

/-- The positions of the elements between children. -/
def separators (o : Nat) (cs : List Shape) : List Nat :=
  (starts o cs).tail.map fun k => k - 1

/-- Parts a full node in the middle; the middle element is in neither half. -/
def halves : Shape → Shape × Shape
  | .leaf n => (.leaf minCount, .leaf (n - minCount - 1))
  | .inner cs => (.inner (cs.take (minCount + 1)), .inner (cs.drop (minCount + 1)))

/-- Joins two nodes and the element between them. -/
def join : Shape → Shape → Shape
  | .leaf m, .leaf n => .leaf (m + 1 + n)
  | .inner cs, .inner ds => .inner (cs ++ ds)
  | s, t => .leaf (s.size + 1 + t.size)

/-- Moves an element from the first of two neighbours to the second, through the element between
    them. -/
def moveRight : Shape → Shape → List Shape
  | .leaf m, .leaf n => [.leaf (m - 1), .leaf (n + 1)]
  | .inner cs, .inner ds => [.inner cs.dropLast, .inner (cs.getLast?.toList ++ ds)]
  | s, t => [s, t]

/-- Moves an element from the second of two neighbours to the first, through the element between
    them. -/
def moveLeft : Shape → Shape → List Shape
  | .leaf m, .leaf n => [.leaf (m + 1), .leaf (n - 1)]
  | .inner cs, .inner ds => [.inner (cs ++ ds.head?.toList), .inner ds.tail]
  | s, t => [s, t]

/-- Applies a change to two neighbours, of which the first has `k` children before it. -/
def changePair (change : Shape → Shape → List Shape) (k : Nat) (cs : List Shape) : List Shape :=
  match cs.drop k with
  | c :: d :: rest => cs.take k ++ change c d ++ rest
  | _ => cs

/-- Parts the child after `k` others, if it is full. -/
def splitChild (k : Nat) (cs : List Shape) : List Shape :=
  match cs.drop k with
  | c :: rest => if maxCount ≤ c.count then cs.take k ++ [c.halves.1, c.halves.2] ++ rest else cs
  | [] => cs

/-- Whether the child after `k` others has more elements than it needs. -/
def canSpare (k : Nat) (cs : List Shape) : Bool :=
  cs[k]?.any fun c => minCount < c.count

/-- Gives the child after `k` others more elements: one of a neighbour that can spare it, or else
    all of a neighbour. -/
def grow (k : Nat) (cs : List Shape) : List Shape :=
  if 0 < k && canSpare (k - 1) cs then changePair moveRight (k - 1) cs
  else if canSpare (k + 1) cs then changePair moveLeft k cs
  else
    let k := if k + 1 < cs.length then k else k - 1
    changePair (fun c d => [c.join d]) k cs

/-! ### Changes -/

variable {β : Type u}

/-- The elements at some positions. -/
def elementsAt (xs : List β) (ps : List Nat) : List β :=
  ps.filterMap fun p => xs[p]?

/-- Finds the place of an element to put in, in a node that is taken as a single leaf. -/
def insertInLeaf (q : Probe β) (xs : List β) (o : Nat) (s : Shape) : Spot × Shape :=
  match q.findWithin xs o s.size with
  | .taken k => (.taken k, .leaf s.size)
  | .between k => (.between k, .leaf (s.size + 1))

/-- Parts the child after `k` others, if it is full, on the way to a place in it.  Beside the
    children after that stands the position of the element in the middle, if it is at that place, or
    else the number of children before the one to go on with. -/
def partOnWay (q : Probe β) (xs : List β) (o k : Nat) (cs : List Shape) : List Shape × Spot :=
  let ds := splitChild k cs
  let middle := (separators o ds).getD k o
  let isPast := cs.length < ds.length && !xs[middle]?.all q.isBefore
  if isPast && !xs[middle]?.all q.isAfter then (ds, .taken middle)
  else (ds, .between (if isPast then k + 1 else k))

/-- Finds the place of an element to put in, and the shape after that.  Full nodes on the way are
    parted.  `o` elements are before the node; `fuel` bounds its height. -/
def insertIn (q : Probe β) (xs : List β) (fuel o : Nat) (s : Shape) : Spot × Shape :=
  match fuel, s with
  | fuel + 1, .inner cs =>
    match q.find (elementsAt xs (separators o cs)) with
    | .taken k => (.taken ((separators o cs).getD k o), .inner cs)
    | .between k =>
      match partOnWay q xs o k cs with
      | (ds, .taken p) => (.taken p, .inner ds)
      | (ds, .between k) =>
        match ds[k]? with
        | none => insertInLeaf q xs o (.inner ds)
        | some d =>
          let (spot, d) := insertIn q xs fuel ((starts o ds).getD k o) d
          (spot, .inner (ds.set k d))
  | _, s => insertInLeaf q xs o s

/-- Finds the place of an element to put in, and the shape after that. -/
def insert (q : Probe β) (xs : List β) (s : Shape) : Spot × Shape :=
  let s := if maxCount ≤ s.count then .inner [s.halves.1, s.halves.2] else s
  insertIn q xs s.height 0 s

/-- The shape without its last element; `fuel` bounds the number of steps. -/
def dropLast (fuel : Nat) (s : Shape) : Shape :=
  match fuel, s with
  | fuel + 1, .inner cs =>
    let k := cs.length - 1
    if canSpare k cs then .inner (cs.dropLast ++ cs.getLast?.toList.map (dropLast fuel))
    else dropLast fuel (.inner (grow k cs))
  | _, s => .leaf (s.size - 1)

/-- Finds the place of an element to take out, in a node that is taken as a single leaf. -/
def removeInLeaf (q : Probe β) (xs : List β) (o : Nat) (s : Shape) : Spot × Shape :=
  match q.findWithin xs o s.size with
  | .taken k => (.taken k, .leaf (s.size - 1))
  | .between k => (.between k, .leaf s.size)

/-- Finds the place of an element to take out, and the shape after that.  Nodes on the way that
    cannot spare an element grow first.  `o` elements are before the node; `fuel` bounds the number
    of steps. -/
def removeIn (q : Probe β) (xs : List β) (fuel o : Nat) (s : Shape) : Spot × Shape :=
  match fuel, s with
  | fuel + 1, .inner cs =>
    let spot := q.find (elementsAt xs (separators o cs))
    let k := spot.start
    if !canSpare k cs then removeIn q xs fuel o (.inner (grow k cs))
    else
      match spot, cs[k]? with
      | .taken _, some c =>
        (.taken ((separators o cs).getD k o), .inner (cs.set k (c.dropLast fuel)))
      | .between _, some c =>
        let (spot, c) := removeIn q xs fuel ((starts o cs).getD k o) c
        (spot, .inner (cs.set k c))
      | _, none => removeInLeaf q xs o (.inner cs)
  | _, s => removeInLeaf q xs o s

/-- A root without elements gives way to its child. -/
def trim : Shape → Shape
  | .inner [c] => c
  | s => s

/-- Finds the place of an element to take out, and the shape after that.  If there is no such
    element, the place is between others. -/
def remove (q : Probe β) (xs : List β) (s : Shape) : Spot × Shape :=
  let (spot, s) := removeIn q xs (2 * (s.size + s.height + 1)) 0 s
  (spot, s.trim)

/-! ### Queries -/

/-- Whether an element counts as one up to a probe. -/
def isUpTo (q : Probe β) (x : β) : Bool :=
  q.isAfter x || !q.isBefore x

/-- The last element of the list up to a probe, by its position.  `o` elements are before the node;
    `fuel` bounds its height. -/
def lastIn? (q : Probe β) (xs : List β) (fuel o : Nat) (s : Shape) : Option Nat :=
  let isUpTo (p : Nat) : Bool := xs[p]?.any (isUpTo q)
  match fuel, s with
  | fuel + 1, .inner cs =>
    let seps := separators o cs
    let k := (q.find (elementsAt xs seps)).stop
    match (seps.take k).reverse.find? isUpTo with
    | none => cs.head?.bind (lastIn? q xs fuel o)
    | some p =>
      let j := (seps.takeWhile fun p' => p' != p).length + 1
      (cs[j]?.bind (lastIn? q xs fuel (p + 1))).or (some p)
  | _, s => ((List.range (q.findWithin xs o s.size).stop).drop o).reverse.find? isUpTo

/-- The position of the last element up to a probe. -/
def last? (q : Probe β) (xs : List β) (s : Shape) : Option Nat :=
  lastIn? q xs s.height 0 s

/-- The positions of the elements from a probe on.  `o` elements are before the node; `fuel` bounds
    its height. -/
def fromIn (q : Probe β) (xs : List β) (fuel o : Nat) (s : Shape) : List Nat :=
  match fuel, s with
  | fuel + 1, .inner cs =>
    let k := (q.find (elementsAt xs (separators o cs))).start
    let parts := (cs.zip (starts o cs)).drop k
    (parts.flatMap fun (c, start) => fromIn q xs fuel start c ++ [start + c.size]).dropLast
  | _, s => (List.range (o + s.size)).drop (q.findWithin xs o s.size).start

/-- The positions of the elements from a probe on. -/
def startingAt (q : Probe β) (xs : List β) (s : Shape) : List Nat :=
  fromIn q xs s.height 0 s

end Shape

end Allotment
