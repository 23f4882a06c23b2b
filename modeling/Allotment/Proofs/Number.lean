import Allotment.Proofs.Domain

namespace Allotment

/-!
# Intervals of 64-bit integers

Between 64-bit integers a cut is an integer: the number that comes after it.  An interval contains
the numbers from its lower cut up to its upper one, in whichever form it is written, so questions
about the numbers of an interval are questions about two integers.

* `Word.exists_toInt_eq`, `Word.toInt_sub_of_le` — integers that are words, and differences of
  words;
* `Cut.position` — the number that comes after a cut;
* `Cut.position_canonical` — the half-open form of a cut is in the same place;
* `Cut.below_le_iff_position`, `Cut.le_above_iff_position` — where the order of cuts is more than
  that of their places;
* `Interval.contains_iff_position` — the numbers of an interval;
* `Interval.isEmpty_canonical_iff` — whether its half-open form is empty.
-/

/-! ### Words -/

namespace Word

/-- Every integer that is neither too small nor too great is a word. -/
theorem exists_toInt_eq {n : Int} (hle : -9223372036854775808 ≤ n) (hlt : n < 9223372036854775808) :
    ∃ v : Int64, v.toInt = n :=
  ⟨Int64.ofInt n, Int64.toInt_ofInt_of_le hle hlt⟩

/-- The difference of two words that are not negative does not wrap around. -/
theorem toInt_sub_of_le {a b : Int64} (ha : 0 ≤ a.toInt) (hab : a.toInt ≤ b.toInt) :
    (b - a).toInt = b.toInt - a.toInt := by
  have hlt := b.toInt_lt
  rw [Int64.toInt_sub]
  exact Int.bmod_eq_of_le (by omega) (by omega)

/-- Counting up by one is exact below the greatest number. -/
theorem toInt_add_one {v : Int64} (hv : v.toInt < Int64.maxValue.toInt) :
    (v + 1).toInt = v.toInt + 1 := by
  refine Domain.toInt_nextInt64 (if_neg ?_)
  rintro rfl
  exact absurd hv (Int.lt_irrefl _)

end Word

/-! ### Cuts -/

namespace Cut

/-- The number that comes after a cut.  After the last cut comes the number that is one too
    great. -/
def position : Cut Int64 → Int
  | .bottom => Int64.minValue.toInt
  | .below v => v.toInt
  | .above v => v.toInt + 1
  | .top => Int64.maxValue.toInt + 1

@[simp] theorem position_below (v : Int64) : (below v).position = v.toInt :=
  rfl

@[simp] theorem position_above (v : Int64) : (above v).position = v.toInt + 1 :=
  rfl

@[simp] theorem position_bottom : (bottom : Cut Int64).position = -9223372036854775808 :=
  rfl

@[simp] theorem position_top : (top : Cut Int64).position = 9223372036854775808 :=
  rfl

/-- No cut is before the position of the first number. -/
theorem le_position (c : Cut Int64) : -9223372036854775808 ≤ c.position := by
  cases c with
  | bottom => exact Int.le_refl _
  | below v => exact v.le_toInt
  | above v =>
    have hle := v.le_toInt
    rw [position_above]
    omega
  | top => decide

/-- No cut is after the position that follows the last number. -/
theorem position_le (c : Cut Int64) : c.position ≤ 9223372036854775808 := by
  cases c with
  | bottom => decide
  | below v =>
    have hlt := v.toInt_lt
    rw [position_below]
    omega
  | above v => exact v.toInt_lt
  | top => exact Int.le_refl _

/-- A cut precedes the numbers from its position on. -/
theorem precedes_iff_position (c : Cut Int64) (v : Int64) :
    precedes Order.int64 c v ↔ c.position ≤ v.toInt := by
  cases c with
  | bottom => exact iff_of_true rfl v.le_toInt
  | below w => exact Int.isLE_compare
  | above w =>
    show (Ord.compare w.toInt v.toInt).isLT ↔ _
    rw [Ordering.isLT_iff_eq_lt, Int.compare_eq_lt]
    exact Iff.rfl
  | top =>
    have hlt := v.toInt_lt
    refine iff_of_false nofun ?_
    rw [position_top]
    omega

/-- The half-open form of a cut has its position. -/
@[simp] theorem position_canonical (c : Cut Int64) :
    (c.canonical .int64).position = c.position := by
  cases c with
  | above v =>
    cases hnext : Domain.int64.next v with
    | some w =>
      rw [canonical_above_some hnext]
      exact Domain.toInt_nextInt64 hnext
    | none =>
      -- Only the greatest number has no next one.
      rw [canonical_above_none hnext]
      have hmax : v = Int64.maxValue := by simpa [Domain.int64, Domain.nextInt64] using hnext
      rw [hmax]
      rfl
  | bottom => rfl
  | below v => rfl
  | top => rfl

/-- The cut before all numbers has no natural position. -/
theorem ne_bottom_of_nonneg {c : Cut Int64} (h : 0 ≤ c.position) : c ≠ .bottom := by
  rintro rfl
  exact absurd h (by decide)

/-- The half-open form of a cut between words is below a word. -/
theorem exists_canonical_eq_below {c : Cut Int64} (hle : 0 ≤ c.position)
    (hlt : c.position < 9223372036854775808) :
    ∃ v, c.canonical .int64 = .below v ∧ v.toInt = c.position := by
  have hhalf := halfOpen_canonical (d := .int64) c
  rw [← position_canonical] at hle hlt ⊢
  cases hcut : c.canonical .int64 with
  | bottom => exact absurd hcut (ne_bottom_of_nonneg hle)
  | below v => exact ⟨v, rfl, rfl⟩
  | above v =>
    rw [hcut] at hhalf
    exact hhalf.elim
  | top =>
    rw [hcut] at hlt
    exact absurd hlt (by decide)

/-- The half-open form of a cut after the last word has no end. -/
theorem canonical_eq_top {c : Cut Int64} (h : c.position = 9223372036854775808) :
    c.canonical .int64 = .top := by
  have hhalf := halfOpen_canonical (d := .int64) c
  rw [← position_canonical] at h
  cases hcut : c.canonical .int64 with
  | bottom =>
    rw [hcut] at h
    exact absurd h (by decide)
  -- No number is at this position, since all are less.
  | below v =>
    have hlt := v.toInt_lt
    rw [hcut, position_below] at h
    omega
  | above v =>
    rw [hcut] at hhalf
    exact hhalf.elim
  | top => rfl

/-- A cut is before a half-open cut when its position is; the first cut is apart. -/
theorem HalfOpen.le_iff_position {c : Cut Int64} (hc : c.HalfOpen) (hne : c ≠ .bottom)
    (a : Cut Int64) : le Order.int64 a c ↔ a.position ≤ c.position := by
  cases c with
  | bottom => exact absurd rfl hne
  | below w => rw [← precedes_eq_le, precedes_iff_position, position_below]
  | above w => exact absurd hc id
  | top => exact iff_of_true (le_top a) a.position_le

/-- The cuts below two numbers are ordered as the numbers. -/
theorem below_lt_below (v w : Int64) :
    lt Order.int64 (.below v) (.below w) ↔ v.toInt < w.toInt := by
  show (Ord.compare v.toInt w.toInt).isLT ↔ _
  rw [Ordering.isLT_iff_eq_lt, Int.compare_eq_lt]

/-- The cut below a number is before the one above another unless the number is greater. -/
theorem below_le_above (v w : Int64) :
    le Order.int64 (.below v) (.above w) ↔ v.toInt ≤ w.toInt := by
  rw [← Int.isLE_compare]
  show ((Ord.compare v.toInt w.toInt).then .lt).isLE ↔ _
  cases Ord.compare v.toInt w.toInt <;> simp

/-- A cut in the place of the cut below a number comes after it, unless it is written with the
    number before. -/
theorem below_le_iff_position (v : Int64) (c : Cut Int64) :
    le Order.int64 (.below v) c ↔
      v.toInt ≤ c.position ∧ c ≠ .bottom ∧ ∀ w, c = .above w → w.toInt + 1 ≠ v.toInt := by
  cases c with
  | bottom => simp [le, compare]
  | below w =>
    have hle : le Order.int64 (.below v) (.below w) ↔ v.toInt ≤ w.toInt := Int.isLE_compare
    simp [hle]
  -- The cut above a number and the one below the next number have the same position, but not the
  -- same place.
  | above w =>
    simp only [below_le_above, position_above, ne_eq, reduceCtorEq, not_false_eq_true, true_and,
      above.injEq, forall_eq']
    omega
  | top =>
    have hlt := v.toInt_lt
    simp only [le_top, position_top, ne_eq, reduceCtorEq, not_false_eq_true, false_implies,
      implies_true, and_true, true_iff]
    omega

/-- A cut in the place of the cut above a number comes before it, unless it is written with the
    number after. -/
theorem le_above_iff_position (c : Cut Int64) (v : Int64) :
    le Order.int64 c (.above v) ↔
      c.position ≤ v.toInt + 1 ∧ c ≠ .top ∧ ∀ w, c = .below w → w.toInt ≠ v.toInt + 1 := by
  cases c with
  | bottom =>
    have hle := v.le_toInt
    simp only [bottom_le, position_bottom, ne_eq, reduceCtorEq, not_false_eq_true, false_implies,
      implies_true, and_true, true_iff]
    omega
  -- The same on the other side: the cut below the number after `v` is not up to the cut above `v`.
  | below w =>
    simp only [below_le_above, position_below, ne_eq, reduceCtorEq, not_false_eq_true, true_and,
      below.injEq, forall_eq']
    omega
  | above w =>
    have hle : le Order.int64 (.above w) (.above v) ↔ w.toInt ≤ v.toInt := Int.isLE_compare
    simp [hle]
  | top => simp [le, compare]

end Cut

/-! ### Intervals -/

namespace Interval

/-- The numbers of an interval lie between its cuts. -/
theorem contains_iff_position (r : Interval Int64) (v : Int64) :
    r.contains Order.int64 v ↔ r.lower.position ≤ v.toInt ∧ v.toInt < r.upper.position := by
  rw [contains, Bool.and_eq_true, Bool.not_eq_true', ← Bool.not_eq_true, Cut.precedes_iff_position,
    Cut.precedes_iff_position, Int.not_le]

/-- The half-open form of an interval with a lower end is empty when the interval contains no
    number. -/
theorem isEmpty_canonical_iff {r : Interval Int64} (hr : r.lower ≠ .bottom) :
    (r.canonical .int64).isEmpty Order.int64 ↔ r.upper.position ≤ r.lower.position := by
  have hne : r.lower.canonical .int64 ≠ .bottom := by
    cases hlower : r.lower with
    | bottom => exact absurd hlower hr
    | top => nofun
    | below v => exact Cut.canonical_ne_bottom rfl
    | above v => exact Cut.canonical_ne_bottom rfl
  rw [isEmpty_iff, ← Cut.position_canonical r.upper, ← Cut.position_canonical r.lower]
  exact (Cut.halfOpen_canonical _).le_iff_position hne _

end Interval

/-- The numbers of a range in their natural order. -/
theorem Range.contains_iff_position {r : Range Int64} (hr : r.cmp = Order.int64) (v : Int64) :
    r.contains v ↔ r.lower.position ≤ v.toInt ∧ v.toInt < r.upper.position := by
  unfold Range.contains
  rw [hr, Interval.contains_iff_position]

end Allotment
