import Allotment.Proofs.Domain
import Allotment.Range.Reading

namespace Allotment

/-!
# The algebra of two ranges

All operations on two ranges of one order compare their four cuts and choose among them.  What they
say of the values follows from what they say of the cuts, for a range contains a value exactly when
it spans the cut below the value.  Nothing is asked of the ranges: they may be open or closed,
unbounded, empty, and their ends may be crossed.

* `Interval.encloses_hull_iff` — the hull of two intervals is the least one that encloses both;
* `Interval.spans_hull_iff` — the hull of connected intervals spans nothing beyond them;
* `Interval.meet?_isEmpty` — intervals that do not overlap have an empty common part, if they have
  one;
* `Reading.ReadIn` — a range that is read in an order;
* `Reading.Algebra`, `Reading.algebra_of_readIn` — all operations on two ranges, value by value.
-/

universe u

variable {α : Type u} {cmp : α → α → Ordering}

/-! ### Two intervals -/

namespace Interval

variable {r s t : Interval α}

/-- Two intervals are connected when neither starts after the other ends. -/
theorem isConnected_iff (r s : Interval α) :
    r.isConnected cmp s ↔ Cut.le cmp r.lower s.upper ∧ Cut.le cmp s.lower r.upper := by
  rw [isConnected, Bool.and_eq_true]

theorem isConnected_comm (r s : Interval α) : r.isConnected cmp s = s.isConnected cmp r :=
  Bool.and_comm ..

variable [Std.TransCmp cmp]

/-- What encloses both of two intervals is what encloses their hull. -/
theorem encloses_hull_iff (r s t : Interval α) :
    t.encloses cmp (r.hull cmp s) ↔ t.encloses cmp r ∧ t.encloses cmp s := by
  simp only [encloses_iff, hull, Cut.le_min_iff, Cut.max_le_iff]
  exact and_and_and_comm

/-- The hull of connected intervals spans what one of them spans: a cut past the end of the one that
    starts first is not before the start of the other. -/
theorem spans_hull_iff (h : r.isConnected cmp s) (c : Cut α) :
    (r.hull cmp s).Spans cmp c ↔ r.Spans cmp c ∨ s.Spans cmp c := by
  obtain ⟨hrs, hsr⟩ := (isConnected_iff r s).mp h
  simp only [Spans, hull, Cut.min_le_iff, Cut.lt_max_iff]
  constructor
  · rintro ⟨hr | hs, hend⟩
    · by_cases hin : Cut.lt cmp c r.upper
      · exact Or.inl ⟨hr, hin⟩
      · exact Or.inr ⟨by grind, hend.resolve_left hin⟩
    · by_cases hin : Cut.lt cmp c s.upper
      · exact Or.inr ⟨hs, hin⟩
      · exact Or.inl ⟨by grind, hend.resolve_right hin⟩
  · rintro (⟨hstart, hend⟩ | ⟨hstart, hend⟩)
    · exact ⟨Or.inl hstart, Or.inl hend⟩
    · exact ⟨Or.inr hstart, Or.inr hend⟩

/-- An empty interval spans no cut. -/
theorem not_spans_of_isEmpty (h : r.isEmpty cmp) (c : Cut α) : ¬ r.Spans cmp c := by
  rw [isEmpty_iff] at h
  unfold Spans
  grind

/-- The common part of intervals that are apart is empty. -/
theorem meet?_isEmpty (h : Apart cmp r s) (ht : r.meet? cmp s = some t) : t.isEmpty cmp := by
  cases hempty : t.isEmpty cmp with
  | true => rfl
  | false =>
    -- A common part that is not empty spans its own start, and then both intervals span it.
    rw [isEmpty_eq_false_iff] at hempty
    have hboth := (spans_meet?_iff r s t.lower).mp ⟨t, ht, Cut.le_refl _, hempty⟩
    exact absurd hboth.2 (h.not_spans hboth.1)

end Interval

/-! ### Two ranges -/

namespace Reading

variable {r s : Reading α}

/-- A range that is read in the order `cmp`. -/
def ReadIn (cmp : α → α → Ordering) (r : Reading α) : Prop :=
  r.cmp? = some cmp

theorem ReadIn.order_eq (hr : r.ReadIn cmp) : r.order = cmp := by
  rw [order, hr, Option.getD_some]

/-- A range is empty when its interval is. -/
theorem ReadIn.isEmpty_eq (hr : r.ReadIn cmp) : r.isEmpty = r.toInterval.isEmpty cmp := by
  rw [isEmpty, range?, hr]
  rfl

theorem ReadIn.hull (hr : r.ReadIn cmp) (s : Reading α) : (r.hull s).ReadIn cmp :=
  hr

/-- The common part is read in the order of the first range. -/
theorem ReadIn.meet?_eq_some_iff (hr : r.ReadIn cmp) {m : Reading α} :
    r.meet? s = some m ↔
      m.ReadIn cmp ∧ r.toInterval.meet? cmp s.toInterval = some m.toInterval := by
  obtain ⟨i, order⟩ := m
  rw [meet?, hr.order_eq, Option.map_eq_some_iff, show r.cmp? = some cmp from hr]
  constructor
  · rintro ⟨j, hj, heq⟩
    cases heq
    exact ⟨rfl, hj⟩
  · rintro ⟨rfl, hi⟩
    exact ⟨i, hi, rfl⟩

variable [Std.TransCmp cmp]

/-- A range has the values whose cuts its interval spans. -/
theorem ReadIn.contains_iff (hr : r.ReadIn cmp) (v : α) :
    r.contains v ↔ r.toInterval.Spans cmp (.below v) := by
  rw [contains, range?, hr, Option.map_some, Option.any_some]
  exact Range.contains_iff_spans rfl v

/-- What the operations on the ranges `r` and `s` say of their values. -/
structure Algebra (cmp : α → α → Ordering) (r s : Reading α) : Prop where
  contains_meet? : ∀ m, r.meet? s = some m → ∀ v, m.contains v ↔ r.contains v ∧ s.contains v
  meet?_eq_none : r.meet? s = none → ∀ v, ¬ (r.contains v ∧ s.contains v)
  encloses_left : (r.hull s).encloses r
  encloses_right : (r.hull s).encloses s
  encloses_hull : ∀ t : Reading α, t.ReadIn cmp → t.encloses r → t.encloses s →
    t.encloses (r.hull s)
  isConnected_comm : r.isConnected s = s.isConnected r
  contains_hull : r.isConnected s → ∀ v, (r.hull s).contains v ↔ r.contains v ∨ s.contains v
  contains_of_encloses : r.encloses s → ∀ v, s.contains v → r.contains v
  contains_of_isEmpty : r.isEmpty → ∀ v, r.contains v = false

/-- **The operations on ranges are sound.**  Take any two ranges of one total order.  If they have a
    common part, it contains the values that both contain, and if they have none, no value is in
    both.  Their hull encloses both, and what encloses both encloses the hull.  Being connected is
    symmetric, and the hull of connected ranges contains no values but theirs.  A range contains the
    values of a range that it encloses, and an empty one contains none. -/
theorem algebra_of_readIn (hr : r.ReadIn cmp) (hs : s.ReadIn cmp) : r.Algebra cmp s := by
  have hhull : ∀ t : Reading α, t.ReadIn cmp →
      (t.encloses (r.hull s) ↔ t.encloses r ∧ t.encloses s) := by
    intro t ht
    unfold encloses hull
    rw [ht.order_eq, hr.order_eq]
    exact Interval.encloses_hull_iff ..
  -- The hull encloses itself, and so it encloses both ranges.
  have hself : (r.hull s).encloses (r.hull s) := by
    unfold encloses
    rw [(hr.hull s).order_eq]
    exact Interval.encloses_refl _
  have hboth := (hhull (r.hull s) (hr.hull s)).mp hself
  refine ⟨fun m hm v => ?_, fun hnone v => ?_, hboth.1, hboth.2,
    fun t ht htr hts => (hhull t ht).mpr ⟨htr, hts⟩, ?_, fun hconn v => ?_, fun hencloses v hv =>
    ?_, fun hempty v => ?_⟩
  · obtain ⟨hread, hmeet⟩ := hr.meet?_eq_some_iff.mp hm
    rw [hread.contains_iff, hr.contains_iff, hs.contains_iff, ← Interval.spans_meet?_iff, hmeet]
    simp
  · have hmeet : r.toInterval.meet? cmp s.toInterval = none := by
      rw [meet?, hr.order_eq, Option.map_eq_none_iff] at hnone
      exact hnone
    rw [hr.contains_iff, hs.contains_iff, ← Interval.spans_meet?_iff, hmeet]
    simp
  · unfold isConnected
    rw [hr.order_eq, hs.order_eq]
    exact Interval.isConnected_comm ..
  · have hconn' : r.toInterval.isConnected cmp s.toInterval := by
      rw [isConnected, hr.order_eq] at hconn
      exact hconn
    rw [(hr.hull s).contains_iff, hr.contains_iff, hs.contains_iff,
      ← Interval.spans_hull_iff hconn', hull, hr.order_eq]
  · rw [encloses, hr.order_eq] at hencloses
    rw [hr.contains_iff]
    exact Interval.spans_of_encloses hencloses ((hs.contains_iff v).mp hv)
  · rw [hr.isEmpty_eq] at hempty
    rw [← Bool.not_eq_true, hr.contains_iff]
    exact Interval.not_spans_of_isEmpty hempty _

/-- The range `[1‥3]`. -/
def sampleFront : Reading Int64 :=
  ⟨.closed 1 3, some Order.int64⟩

/-- The range `(3‥5]`, which starts where the other one ends. -/
def sampleBack : Reading Int64 :=
  ⟨⟨.above 3, .above 5⟩, some Order.int64⟩

/-- A range whose ends are crossed. -/
def sampleCrossed : Reading Int64 :=
  ⟨.closed 5 2, some Order.int64⟩

/-- Two ranges that touch, and a crossed range that has nothing in common with others. -/
theorem samples_algebra :
    sampleFront.ReadIn Order.int64 ∧ sampleBack.ReadIn Order.int64 ∧
      sampleCrossed.ReadIn Order.int64 ∧
      sampleFront.Algebra Order.int64 sampleBack ∧ sampleCrossed.Algebra Order.int64 sampleFront ∧
      sampleFront.isConnected sampleBack ∧ (sampleFront.meet? sampleBack).any isEmpty ∧
      (sampleFront.hull sampleBack).toInterval = .closed 1 5 ∧
      sampleCrossed.meet? sampleFront = none :=
  ⟨rfl, rfl, rfl, algebra_of_readIn rfl rfl,
    algebra_of_readIn rfl rfl, by decide, by decide, by decide, by decide⟩

end Reading

end Allotment
