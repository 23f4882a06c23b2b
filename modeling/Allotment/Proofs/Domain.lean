import Allotment.Domain
import Allotment.Order
import Allotment.Proofs.Interval

namespace Allotment

/-!
# Lawful domains

A domain is lawful for an order when the value after a value is the least one greater than it, and
only a greatest value has none.  Then the half-open form of a cut is the least half-open cut at or
after it, so an interval and its half-open form contain the same values.

* `Domain.Lawful` — the laws of a domain;
* `Domain.LawfulOn` — the laws for some of the values;
* `Cut.HalfOpen` — cuts that are not above a value;
* `Cut.canonical_le_iff` — what the half-open form of a cut comes before;
* `Interval.contains_canonical`, `Interval.contains_canonical_on` — the half-open form of an
  interval;
* `Interval.encloses_of_spans` — enclosing an interval means having its values;
* `Domain.Patient` — a domain in which no climb lasts longer than the patience;
* `Domain.lawful_int64`, `Domain.patient_int64` — the 64-bit integers are lawful, and there is
  patience for them.
-/

universe u

variable {α : Type u} {cmp : α → α → Ordering} {d : Domain α}

/-- The value after `v` is the least one that is greater than `v`, and it is absent exactly when no
    value is greater than `v`. -/
structure Domain.Lawful (d : Domain α) (cmp : α → α → Ordering) : Prop where
  lt_next : ∀ v w, d.next v = some w → cmp v w = .lt
  next_le : ∀ v w x, d.next v = some w → cmp v x = .lt → (cmp w x).isLE
  next_eq_none : ∀ v, d.next v = none ↔ ∀ x, (cmp x v).isLE

/-- The laws for the values of `P` alone, which the value after a value does not leave. -/
structure Domain.LawfulOn (d : Domain α) (cmp : α → α → Ordering) (P : α → Prop) : Prop where
  next_mem : ∀ v w, P v → d.next v = some w → P w
  lt_next : ∀ v w, P v → d.next v = some w → cmp v w = .lt
  next_le : ∀ v w x, P v → P x → d.next v = some w → cmp v x = .lt → (cmp w x).isLE
  next_eq_none : ∀ v, P v → (d.next v = none ↔ ∀ x, P x → (cmp x v).isLE)

/-- What holds of all values holds of those with any property. -/
theorem Domain.Lawful.lawfulOn (hd : d.Lawful cmp) : d.LawfulOn cmp fun _ => True where
  next_mem _ _ _ _ := trivial
  lt_next v w _ := hd.lt_next v w
  next_le v w x _ _ := hd.next_le v w x
  next_eq_none v _ := by simpa using hd.next_eq_none v

/-- Every climb from value to value ends while there is patience left: the values have ranks below
    the patience, and the rank goes down with every step. -/
def Domain.Patient (d : Domain α) : Prop :=
  ∃ rank : α → Nat, (∀ v, rank v < d.patience) ∧ ∀ v w, d.next v = some w → rank w < rank v

namespace Cut

/-- A cut that is not above a value. -/
def HalfOpen : Cut α → Prop
  | .above _ => False
  | _ => True

/-- A half-open cut has nothing to be rewritten. -/
theorem canonical_eq_self {c : Cut α} (h : c.HalfOpen) : c.canonical d = c := by
  cases c with
  | above v => exact absurd h id
  | bottom => rfl
  | below v => rfl
  | top => rfl

/-- The cut above a value is the one below the next value. -/
theorem canonical_above_some {v w : α} (h : d.next v = some w) :
    (Cut.above v).canonical d = .below w := by
  simp [canonical, h]

/-- Where no value follows, the cut above a value is the one after all values. -/
theorem canonical_above_none {v : α} (h : d.next v = none) : (Cut.above v).canonical d = .top := by
  simp [canonical, h]

/-- Rewritten cuts are half-open. -/
theorem halfOpen_canonical (c : Cut α) : (c.canonical d).HalfOpen := by
  cases c with
  | above v =>
    cases hnext : d.next v with
    | some w =>
      rw [canonical_above_some hnext]
      trivial
    | none =>
      rw [canonical_above_none hnext]
      trivial
  | bottom => trivial
  | below v => trivial
  | top => trivial

/-- A cut above a value is at or before the cut below another value when the second value is
    greater. -/
theorem above_le_below (v x : α) : le cmp (.above v) (.below x) ↔ cmp v x = .lt := by
  simp only [le, compare]
  cases cmp v x <;> simp [Ordering.then, Ordering.isLE]

/-- The cuts below two values are ordered as the values. -/
theorem below_le_below (v x : α) : le cmp (.below v) (.below x) ↔ (cmp v x).isLE := by
  rfl

/-- A half-open cut does not come between the two cuts beside a value. -/
theorem HalfOpen.le_above_iff {c : Cut α} (hc : c.HalfOpen) (v : α) :
    le cmp c (.above v) ↔ le cmp c (.below v) := by
  cases c with
  | below x =>
    simp only [le, compare]
    cases cmp x v <;> simp [Ordering.then]
  | above x => exact absurd hc id
  | bottom => exact Iff.rfl
  | top => exact Iff.rfl

/-- For half-open cuts there is no difference between after a value and after the cut above it. -/
theorem HalfOpen.above_lt_iff {c : Cut α} (hc : c.HalfOpen) (v : α) :
    lt cmp (.above v) c ↔ lt cmp (.below v) c := by
  cases c with
  | below x =>
    simp only [lt, compare]
    cases cmp v x <;> simp [Ordering.then, Ordering.isLT]
  | above x => exact absurd hc id
  | bottom => exact Iff.rfl
  | top => exact Iff.rfl

/-- Rewriting a cut at a value never moves it before all values. -/
theorem canonical_ne_bottom {c : Cut α} (h : c.isBounded) : c.canonical d ≠ .bottom := by
  cases c with
  | bottom => cases h
  | below v => nofun
  | above v =>
    cases hnext : d.next v with
    | some w =>
      rw [canonical_above_some hnext]
      nofun
    | none =>
      rw [canonical_above_none hnext]
      nofun
  | top => cases h

variable [Std.TransCmp cmp]

/-- A half-open cut that is neither the first nor the last one stands before a value. -/
theorem HalfOpen.exists_below {a c : Cut α} (ha : a.HalfOpen) (hbottom : a ≠ .bottom)
    (hlt : lt cmp a c) : ∃ v, a = .below v := by
  cases a with
  | below v => exact ⟨v, rfl⟩
  | above v => exact absurd ha id
  | bottom => exact absurd rfl hbottom
  | top =>
    have htop : le cmp c .top := le_top _
    grind

/-- Rewriting moves a cut up, if at all. -/
theorem le_canonical (hd : d.Lawful cmp) (c : Cut α) : le cmp c (c.canonical d) := by
  cases c with
  | above v =>
    cases hnext : d.next v with
    | some w =>
      rw [canonical_above_some hnext]
      exact (above_le_below v w).mpr (hd.lt_next v w hnext)
    | none =>
      rw [canonical_above_none hnext]
      exact le_top _
  | bottom => exact le_refl _
  | below v => exact le_refl _
  | top => exact le_refl _

/-- The half-open form of a cut is the least half-open cut at or after it. -/
theorem canonical_le (hd : d.Lawful cmp) {a c : Cut α} (hc : c.HalfOpen) (h : le cmp a c) :
    le cmp (a.canonical d) c := by
  cases a with
  | above v =>
    cases c with
    | above x => exact absurd hc id
    | bottom => cases h
    | top => exact le_top _
    | below x =>
      have hlt := (above_le_below v x).mp h
      cases hnext : d.next v with
      | some w =>
        rw [canonical_above_some hnext]
        exact (below_le_below w x).mpr (hd.next_le v w x hnext hlt)
      | none =>
        -- A value without a next one has no greater one.
        have hle := (hd.next_eq_none v).mp hnext x
        rw [Std.OrientedCmp.gt_iff_lt.mpr hlt] at hle
        cases hle
  | bottom => exact h
  | below v => exact h
  | top => exact h

/-- The rewritten cut and the cut itself have the same half-open cuts after them. -/
theorem canonical_le_iff (hd : d.Lawful cmp) {a c : Cut α} (hc : c.HalfOpen) :
    le cmp (a.canonical d) c ↔ le cmp a c :=
  ⟨le_trans (le_canonical hd a), canonical_le hd hc⟩

/-- Where the laws hold for the values of `P` alone, the half-open form of a cut beside such a value
    comes before the same values of `P` as the cut. -/
theorem canonical_le_below_iff {P : α → Prop} (hd : d.LawfulOn cmp P) {a : Cut α}
    (ha : ∀ v, a.endpoint? = some v → P v) {x : α} (hx : P x) :
    le cmp (a.canonical d) (.below x) ↔ le cmp a (.below x) := by
  cases a with
  | above v =>
    have hv : P v := ha v rfl
    rw [above_le_below]
    cases hnext : d.next v with
    | some w =>
      rw [canonical_above_some hnext, below_le_below]
      exact ⟨Std.TransCmp.lt_of_lt_of_isLE (hd.lt_next v w hv hnext), hd.next_le v w x hv hx hnext⟩
    | none =>
      rw [canonical_above_none hnext]
      -- The value `v` is the last one, so `x` is not after it.
      refine iff_of_false nofun fun hlt => ?_
      have hle := (hd.next_eq_none v hv).mp hnext x hx
      rw [Std.OrientedCmp.gt_iff_lt.mpr hlt] at hle
      cases hle
  | bottom => exact Iff.rfl
  | below v => exact Iff.rfl
  | top => exact Iff.rfl

end Cut

namespace Interval

/-- An interval both of whose cuts are half open. -/
def HalfOpen (r : Interval α) : Prop :=
  r.lower.HalfOpen ∧ r.upper.HalfOpen

/-- Both ends of a rewritten interval are half-open. -/
theorem halfOpen_canonical (r : Interval α) : (r.canonical d).HalfOpen :=
  ⟨Cut.halfOpen_canonical _, Cut.halfOpen_canonical _⟩

/-- A half-open interval has nothing to be rewritten. -/
theorem canonical_eq_self {r : Interval α} (h : r.HalfOpen) : r.canonical d = r := by
  unfold canonical
  rw [Cut.canonical_eq_self h.1, Cut.canonical_eq_self h.2]

/-- A half-open form is its own half-open form. -/
theorem canonical_canonical (r : Interval α) : (r.canonical d).canonical d = r.canonical d :=
  canonical_eq_self (halfOpen_canonical r)

/-- A half-open interval spans both cuts beside a value, or none of them. -/
theorem HalfOpen.spans_above_iff {r : Interval α} (hr : r.HalfOpen) (v : α) :
    r.Spans cmp (.above v) ↔ r.Spans cmp (.below v) :=
  and_congr (hr.1.le_above_iff v) (hr.2.above_lt_iff v)

variable [Std.TransCmp cmp]

/-- An interval and its half-open form contain the same values. -/
theorem contains_canonical (hd : d.Lawful cmp) (r : Interval α) (v : α) :
    (r.canonical d).contains cmp v = r.contains cmp v := by
  have hv : (Cut.below v).HalfOpen := trivial
  rw [Bool.eq_iff_iff, contains_iff_spans, contains_iff_spans]
  unfold Spans canonical
  rw [Cut.canonical_le_iff hd hv, Cut.lt_eq_not_le, Cut.lt_eq_not_le, Bool.not_eq_true',
    Bool.not_eq_true', ← Bool.not_eq_true, ← Bool.not_eq_true, Cut.canonical_le_iff hd hv]

/-- An interval between values of `P` and its half-open form contain the same values of `P`. -/
theorem contains_canonical_on {P : α → Prop} (hd : d.LawfulOn cmp P) {r : Interval α}
    (hlower : ∀ v, r.lower.endpoint? = some v → P v)
    (hupper : ∀ v, r.upper.endpoint? = some v → P v) {v : α} (hv : P v) :
    (r.canonical d).contains cmp v = r.contains cmp v := by
  rw [Bool.eq_iff_iff, contains_iff_spans, contains_iff_spans]
  unfold Spans canonical
  rw [Cut.canonical_le_below_iff hd hlower hv, Cut.lt_eq_not_le, Cut.lt_eq_not_le,
    Bool.not_eq_true', Bool.not_eq_true', ← Bool.not_eq_true, ← Bool.not_eq_true,
    Cut.canonical_le_below_iff hd hupper hv]

/-- The interval of one value contains the values that are equal to it in the order. -/
theorem contains_singleton (v x : α) : (singleton v).contains cmp x ↔ cmp v x = .eq := by
  have hswap : cmp x v = (cmp v x).swap := Std.OrientedCmp.eq_swap
  simp only [singleton, closed, contains, Cut.precedes]
  cases cmp v x <;> simp [Ordering.isLE, Ordering.isLT]

/-- An interval that starts at a value and is not empty contains the value. -/
theorem contains_of_lower_eq {r : Interval α} {v : α} (hv : r.lower = .below v)
    (hr : Cut.lt cmp r.lower r.upper) : r.contains cmp v := by
  rw [contains_iff_spans]
  unfold Spans
  rw [← hv]
  exact ⟨Cut.le_refl _, hr⟩

/-- An interval that starts at a value is enclosed by a half-open interval that has all its values:
    where the half-open interval ends, there is no value of the other one. -/
theorem encloses_of_spans {r s : Interval α} (hr : r.upper.HalfOpen) (hs : ∃ v, s.lower = .below v)
    (hne : Cut.lt cmp s.lower s.upper) (h : ∀ v, s.Spans cmp (.below v) → r.Spans cmp (.below v)) :
    r.encloses cmp s := by
  obtain ⟨v, hv⟩ := hs
  rw [encloses_iff]
  rw [hv] at hne ⊢
  have hstart : r.Spans cmp (.below v) := h v ⟨by rw [hv]; exact Cut.le_refl _, hne⟩
  refine ⟨hstart.1, ?_⟩
  cases hup : r.upper with
  | top => exact Cut.le_top _
  | above w =>
    rw [hup] at hr
    exact absurd hr id
  | bottom =>
    have hlt := hstart.2
    rw [hup] at hlt
    cases hlt
  | below w =>
    -- If `s` went on after `w`, it would span the cut below `w`, which `r` does not span.
    by_cases hend : Cut.le cmp s.upper (.below w)
    · exact hend
    · have hlt := hstart.2
      rw [hup] at hlt
      have hw : s.Spans cmp (.below w) := by
        unfold Spans
        rw [hv]
        grind
      have hend' := (h w hw).2
      rw [hup] at hend'
      grind

end Interval

/-- The half-open form of a range is its own half-open form. -/
theorem Range.canonical_canonical (r : Range α) : (r.canonical d).canonical d = r.canonical d :=
  congrArg (Range.mk · r.cmp) (Interval.canonical_canonical r.toInterval)

/-! ### The 64-bit integers -/

instance : Std.TransCmp Order.int64 :=
  inferInstanceAs (Std.TransCmp (compareOn Int64.toInt))

instance : Std.LawfulEqCmp Order.int64 where
  eq_of_compare {v w} h := by
    have heq : compare v.toInt w.toInt = .eq := h
    exact Int64.toInt_inj.mp (Std.LawfulEqCmp.eq_of_compare heq)

/-- No word is greater than the greatest one. -/
theorem Domain.toInt_le_maxValue (v : Int64) : v.toInt ≤ Int64.maxValue.toInt := by
  have hlt := v.toInt_lt
  rw [Int64.toInt_maxValue]
  omega

/-- The value after a 64-bit integer is one more than it. -/
theorem Domain.toInt_nextInt64 {v w : Int64} (h : nextInt64 v = some w) :
    w.toInt = v.toInt + 1 := by
  unfold nextInt64 at h
  split at h
  · cases h
  · next hv =>
    obtain rfl := Option.some.inj h
    have hne : v.toInt ≠ Int64.maxValue.toInt := fun h => hv (Int64.toInt_inj.mp h)
    have hbound := toInt_le_maxValue v
    have hle := v.le_toInt
    rw [Int64.toInt_maxValue] at hne hbound
    rw [Int64.toInt_add, Int64.toInt_one]
    exact Int.bmod_eq_of_le (by omega) (by omega)

/-- The 64-bit integers are a lawful domain. -/
theorem Domain.lawful_int64 : int64.Lawful Order.int64 where
  lt_next v w h := by
    have hw := toInt_nextInt64 h
    exact Std.compare_eq_lt.mpr (by omega)
  next_le v w x h hlt := by
    have hw := toInt_nextInt64 h
    have hvx : v.toInt < x.toInt := Std.compare_eq_lt.mp hlt
    exact Std.isLE_compare.mpr (by omega)
  next_eq_none v := by
    have hnone : int64.next v = none ↔ v = Int64.maxValue := by
      simp [int64, nextInt64]
    rw [hnone]
    constructor
    · rintro rfl x
      exact Std.isLE_compare.mpr (toInt_le_maxValue x)
    · -- A number that no other one exceeds is not exceeded by the greatest one.
      intro h
      have hmax : Int64.maxValue.toInt ≤ v.toInt := Std.isLE_compare.mp (h _)
      exact Int64.toInt_inj.mp (Int.le_antisymm (toInt_le_maxValue v) hmax)

/-- There are no more 64-bit integers than the patience for them. -/
theorem Domain.patient_int64 : int64.Patient := by
  refine ⟨fun v => (Int64.maxValue.toInt - v.toInt).toNat, ?_, ?_⟩
  · intro v
    have hle := v.le_toInt
    rw [Int64.toInt_maxValue]
    show (2 ^ 63 - 1 - v.toInt).toNat < 18446744073709551616
    omega
  · intro v w h
    have hw := toInt_nextInt64 h
    have hbound := toInt_le_maxValue w
    show (Int64.maxValue.toInt - w.toInt).toNat < (Int64.maxValue.toInt - v.toInt).toNat
    omega

end Allotment
