import Allotment.Proofs.Cut
import Allotment.Range

namespace Allotment.Interval

/-!
# The cuts that an interval spans

An interval spans the cuts from its lower cut up to, but not including, its upper one.  It contains
a value exactly when it spans the cut below the value, so what holds of all cuts holds of all
values.

* `Spans` — whether an interval spans a cut;
* `Apart` — intervals without a common cut;
* `contains_iff_spans`, `isEmpty_iff`, `overlaps_iff` — the queries of an interval in terms of its
  cuts;
* `spans_meet?_iff` — the common part of two intervals;
* `isValid_of_lt` — an interval that is not empty is valid.
-/

universe u

variable {α : Type u} {cmp : α → α → Ordering}

/-- A cut at or after the lower cut of an interval, and before its upper cut. -/
def Spans (cmp : α → α → Ordering) (r : Interval α) (c : Cut α) : Prop :=
  Cut.le cmp r.lower c ∧ Cut.lt cmp c r.upper

/-- Two intervals of which one ends at or before the start of the other. -/
def Apart (cmp : α → α → Ordering) (r s : Interval α) : Prop :=
  Cut.le cmp r.upper s.lower ∨ Cut.le cmp s.upper r.lower

/-- An interval encloses another one when it starts no later and ends no earlier. -/
theorem encloses_iff (r s : Interval α) :
    r.encloses cmp s ↔ Cut.le cmp r.lower s.lower ∧ Cut.le cmp s.upper r.upper := by
  rw [encloses, Bool.and_eq_true]

/-- An interval that is not empty is valid: its ends cannot be in the wrong order. -/
theorem isValid_of_lt {r : Interval α} (h : Cut.lt cmp r.lower r.upper) : r.isValid cmp := by
  obtain ⟨lower, upper⟩ := r
  cases lower <;> cases upper <;>
    simp_all [isValid, Cut.lt, Cut.compare, Cut.isTop, Cut.isBottom, Cut.endpoint?, Ordering.isLT]
  all_goals
    rename_i x y
    revert h
    cases cmp x y <;> simp [Ordering.then, Ordering.isLE]

variable [Std.TransCmp cmp]

/-- A value lies in an interval exactly when the interval spans the cut below the value. -/
theorem contains_iff_spans (r : Interval α) (v : α) :
    r.contains cmp v ↔ r.Spans cmp (.below v) := by
  unfold contains Spans
  rw [Cut.precedes_eq_le, Cut.precedes_eq_le, Cut.lt_eq_not_le, Bool.and_eq_true]

/-- An interval is empty when its upper cut is at or before its lower one. -/
theorem isEmpty_iff (r : Interval α) : r.isEmpty cmp ↔ Cut.le cmp r.upper r.lower := by
  unfold isEmpty Cut.le
  rw [Std.OrientedCmp.isGE_eq_isLE]

/-- An interval is not empty exactly when its cuts stand in order. -/
theorem isEmpty_eq_false_iff (r : Interval α) :
    r.isEmpty cmp = false ↔ Cut.lt cmp r.lower r.upper := by
  rw [Cut.lt_eq_not_le, ← Bool.not_eq_true, isEmpty_iff]
  simp

theorem encloses_refl (r : Interval α) : r.encloses cmp r :=
  (encloses_iff r r).mpr ⟨Cut.le_refl _, Cut.le_refl _⟩

/-- What an enclosed interval encloses is enclosed too. -/
theorem encloses_trans {r s t : Interval α} (hrs : r.encloses cmp s) (hst : s.encloses cmp t) :
    r.encloses cmp t := by
  rw [encloses_iff] at hrs hst ⊢
  exact ⟨Cut.le_trans hrs.1 hst.1, Cut.le_trans hst.2 hrs.2⟩

/-- The cuts of an enclosed interval are cuts of the interval. -/
theorem spans_of_encloses {r s : Interval α} (h : r.encloses cmp s) {c : Cut α}
    (hs : s.Spans cmp c) : r.Spans cmp c := by
  rw [encloses_iff] at h
  unfold Spans at hs ⊢
  grind

/-- In an order that tells all values apart, intervals that enclose each other are equal. -/
theorem encloses_antisymm [Std.LawfulEqCmp cmp] {r s : Interval α} (hrs : r.encloses cmp s)
    (hsr : s.encloses cmp r) : r = s := by
  rw [encloses_iff] at hrs hsr
  have hlower : Cut.same cmp r.lower s.lower := by
    rw [Cut.same_eq_le_and_le, hrs.1, hsr.1]
    rfl
  have hupper : Cut.same cmp r.upper s.upper := by
    rw [Cut.same_eq_le_and_le, hrs.2, hsr.2]
    rfl
  cases r
  cases s
  exact Interval.mk.injEq .. ▸ ⟨Cut.eq_of_same hlower, Cut.eq_of_same hupper⟩

/-- Intervals that are apart span no common cut. -/
theorem Apart.not_spans {r s : Interval α} (h : Apart cmp r s) {c : Cut α} (hr : r.Spans cmp c) :
    ¬ s.Spans cmp c := by
  unfold Spans at hr ⊢
  unfold Apart at h
  grind

/-- Intervals that start at a value and are not apart have a common value: the one that starts later
    starts within the other. -/
theorem exists_spans_of_not_apart {r s : Interval α} (hr : ∃ v, r.lower = .below v)
    (hs : ∃ v, s.lower = .below v) (hrne : Cut.lt cmp r.lower r.upper)
    (hsne : Cut.lt cmp s.lower s.upper) (h : ¬ Apart cmp r s) :
    ∃ v, r.Spans cmp (.below v) ∧ s.Spans cmp (.below v) := by
  obtain ⟨a, ha⟩ := hr
  obtain ⟨b, hb⟩ := hs
  unfold Apart at h
  unfold Spans
  by_cases hle : Cut.le cmp r.lower s.lower
  · refine ⟨b, ?_⟩
    rw [← hb]
    grind
  · refine ⟨a, ?_⟩
    rw [← ha]
    grind

/-- Two intervals overlap when neither is empty and each starts before the other ends. -/
theorem overlaps_iff (r s : Interval α) :
    r.overlaps cmp s ↔ Cut.lt cmp r.lower r.upper ∧ Cut.lt cmp s.lower s.upper ∧
      Cut.lt cmp r.lower s.upper ∧ Cut.lt cmp s.lower r.upper := by
  unfold overlaps meet?
  by_cases hconn : r.isConnected cmp s
  · rw [if_pos hconn]
    show (!isEmpty cmp ⟨_, _⟩) = true ↔ _
    rw [Bool.not_eq_true', isEmpty_eq_false_iff]
    show Cut.lt cmp (Cut.max cmp r.lower s.lower) (Cut.min cmp r.upper s.upper) ↔ _
    rw [Cut.max_lt_iff, Cut.lt_min_iff, Cut.lt_min_iff]
    constructor
    · rintro ⟨⟨hrr, hrs⟩, hsr, hss⟩
      exact ⟨hrr, hss, hrs, hsr⟩
    · rintro ⟨hrr, hss, hrs, hsr⟩
      exact ⟨⟨hrr, hrs⟩, hsr, hss⟩
  · -- Intervals that are not connected have a cut of one at or past the other.
    rw [if_neg hconn]
    simp only [isConnected, Bool.and_eq_true, not_and] at hconn
    grind

/-- The common part of two intervals spans the cuts that both span; where there is no common part,
    no cut is. -/
theorem spans_meet?_iff (r s : Interval α) (c : Cut α) :
    (∃ m, r.meet? cmp s = some m ∧ m.Spans cmp c) ↔ r.Spans cmp c ∧ s.Spans cmp c := by
  unfold meet?
  by_cases hconn : r.isConnected cmp s
  · rw [if_pos hconn]
    simp only [Option.some.injEq, exists_eq_left', Spans, Cut.max_le_iff, Cut.lt_min_iff]
    exact and_and_and_comm
  · rw [if_neg hconn]
    simp only [isConnected, Bool.and_eq_true, not_and] at hconn
    simp only [reduceCtorEq, false_and, exists_false, Spans, false_iff]
    grind

end Allotment.Interval

/-- The values of a range in terms of the cuts that it spans in its order. -/
theorem Allotment.Range.contains_iff_spans {α : Type u} {cmp : α → α → Ordering} [Std.TransCmp cmp]
    {r : Range α} (hr : r.cmp = cmp) (v : α) :
    r.contains v ↔ r.toInterval.Spans cmp (.below v) := by
  unfold Range.contains
  rw [hr, Interval.contains_iff_spans]
