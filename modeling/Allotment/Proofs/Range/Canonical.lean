import Allotment.Proofs.Range.Algebra

namespace Allotment

/-!
# The half-open form of a range

The half-open form moves every cut above a value to the cut below the next value, whether the cut is
the end or the start of a range.  Above a greatest value it becomes the cut above all values, so
that a range that starts there loses its start and looks like no range at all; even so its values
stay what they were.

* `Interval.isEmpty_canonical_iff_forall` — the half-open form is empty when there is no value;
* `Reading.Touches` — ranges that are connected and have an empty common part;
* `Interval.lower_canonical_lt` — the half-open form of a closed interval from `a` to `b` is not
  empty if `a ≤ b`;
* `Reading.touches_of_next` — the half-open forms of intervals of adjacent values touch;
* `Range.HalfOpenLaws`, `Range.halfOpenLaws_of_lawful` — the half-open form of every range over a
  lawful domain.
-/

universe u

variable {α : Type u} {cmp : α → α → Ordering} {d : Domain α}

namespace Interval

variable {r s : Interval α}

variable [Std.TransCmp cmp]

/-- The half-open form of an interval that has a lower end is empty when the interval has no value.
    Unless it is empty, it starts at a value. -/
theorem isEmpty_canonical_iff_forall (hd : d.Lawful cmp) (hr : r.lower.isBounded) :
    (r.canonical d).isEmpty cmp ↔ ∀ v, r.contains cmp v = false := by
  constructor
  · intro hempty v
    rw [← contains_canonical hd, ← Bool.not_eq_true, contains_iff_spans]
    exact not_spans_of_isEmpty hempty _
  · intro hnone
    cases hempty : (r.canonical d).isEmpty cmp with
    | true => rfl
    | false =>
      rw [isEmpty_eq_false_iff] at hempty
      obtain ⟨v, hv⟩ := (halfOpen_canonical r).1.exists_below (Cut.canonical_ne_bottom hr) hempty
      have hcontains := contains_of_lower_eq hv hempty
      rw [contains_canonical hd, hnone v] at hcontains
      cases hcontains

/-- A closed interval from a value to one that is not less has a half-open form with the first
    value. -/
theorem lower_canonical_lt (hd : d.Lawful cmp) {a b : α} (hab : (cmp a b).isLE) :
    Cut.lt cmp ((closed a b).canonical d).lower ((closed a b).canonical d).upper := by
  have hbelow : Cut.le cmp (.below a) (.below b) := (Cut.below_le_below a b).mpr hab
  have hbeside : Cut.lt cmp (.below b) (.above b) := Cut.below_lt_above b
  have habove : Cut.le cmp (.above b) ((Cut.above b).canonical d) := Cut.le_canonical hd _
  show Cut.lt cmp (.below a) ((Cut.above b).canonical d)
  grind

/-- Two intervals that are not empty, the second of which starts where the first one ends, are
    connected. -/
theorem isConnected_of_upper_eq (hr : Cut.lt cmp r.lower r.upper) (hs : Cut.lt cmp s.lower s.upper)
    (h : r.upper = s.lower) : r.isConnected cmp s := by
  rw [isConnected_iff, ← h]
  rw [← h] at hs
  grind

end Interval

/-! ### Ranges of adjacent values -/

/-- The range from `a` to `b`, both included, in half-open form. -/
def Domain.stretch (d : Domain α) (cmp : α → α → Ordering) (a b : α) : Reading α :=
  .ofRange (Range.canonical d ⟨.closed a b, cmp⟩)

theorem Domain.readIn_stretch (d : Domain α) (a b : α) : (d.stretch cmp a b).ReadIn cmp :=
  rfl

namespace Reading

variable {r s : Reading α}

/-- Ranges that are connected, with an empty common part. -/
def Touches (r s : Reading α) : Prop :=
  r.isConnected s ∧ ∃ m, r.meet? s = some m ∧ m.isEmpty

variable [Std.TransCmp cmp]

/-- Ranges that are connected but have no cut in common touch. -/
theorem touches_of_apart (hr : r.ReadIn cmp) (hconn : r.toInterval.isConnected cmp s.toInterval)
    (hapart : Interval.Apart cmp r.toInterval s.toInterval) : r.Touches s := by
  obtain ⟨i, hi⟩ : ∃ i, r.toInterval.meet? cmp s.toInterval = some i := ⟨_, if_pos hconn⟩
  have hread : (⟨i, some cmp⟩ : Reading α).ReadIn cmp := rfl
  refine ⟨?_, ⟨i, some cmp⟩, hr.meet?_eq_some_iff.mpr ⟨hread, hi⟩, ?_⟩
  · rw [isConnected, hr.order_eq]
    exact hconn
  · rw [hread.isEmpty_eq]
    exact Interval.meet?_isEmpty hapart hi

/-- The half-open form of a range that ends with a value ends where that of a range from the next
    value starts. -/
theorem touches_of_next (hd : d.Lawful cmp) {a b b' c : α} (hab : (cmp a b).isLE)
    (hbc : cmp b c = .lt) (hnext : d.next b = some b') :
    (d.stretch cmp a b).Touches (d.stretch cmp b' c) ∧
      (d.stretch cmp b' c).Touches (d.stretch cmp a b) := by
  -- Both cuts are the one below the value `b'`.
  have hmeets : ((Interval.closed a b).canonical d).upper =
      ((Interval.closed b' c).canonical d).lower :=
    Cut.canonical_above_some hnext
  have hconn := Interval.isConnected_of_upper_eq (Interval.lower_canonical_lt hd hab)
    (Interval.lower_canonical_lt hd (hd.next_le b b' c hnext hbc)) hmeets
  have hle : Cut.le cmp ((Interval.closed a b).canonical d).upper
      ((Interval.closed b' c).canonical d).lower :=
    hmeets ▸ Cut.le_refl _
  exact ⟨touches_of_apart (d.readIn_stretch a b) hconn (Or.inl hle),
    touches_of_apart (d.readIn_stretch b' c) (Interval.isConnected_comm .. ▸ hconn) (Or.inr hle)⟩

end Reading

/-! ### All ranges -/

namespace Range

/-- What the half-open form of a range has to do with the range. -/
structure HalfOpenLaws (d : Domain α) (r : Range α) : Prop where
  contains_eq : ∀ v, (r.canonical d).contains v = r.contains v
  canonical_eq : (r.canonical d).canonical d = r.canonical d
  halfOpen : (r.canonical d).toInterval.HalfOpen
  isEmpty_iff : r.lower.isBounded → ((r.canonical d).isEmpty ↔ ∀ v, r.contains v = false)

variable [Std.TransCmp cmp]

/-- **The half-open form keeps the meaning of a range.**  Take any total order and any domain that
    is lawful for it.  The half-open form of a range, be it empty or with its ends crossed, contains
    the values of the range, and it is its own half-open form, without a cut above a value.  If the
    range has a lower end, its half-open form is empty exactly when the range contains no value.
    The half-open forms of two ranges, one of which starts with the value after the last one of the
    other, are connected and have an empty common part. -/
theorem halfOpenLaws_of_lawful (hd : d.Lawful cmp) :
    (∀ r : Range α, r.cmp = cmp → r.HalfOpenLaws d) ∧
      ∀ a b b' c, (cmp a b).isLE → cmp b c = .lt → d.next b = some b' →
        (d.stretch cmp a b).Touches (d.stretch cmp b' c) ∧
        (d.stretch cmp b' c).Touches (d.stretch cmp a b) := by
  refine ⟨?_, fun a b b' c => Reading.touches_of_next hd⟩
  rintro r rfl
  refine ⟨Interval.contains_canonical hd r.toInterval, ?_, Interval.halfOpen_canonical r.toInterval,
    fun hr => ?_⟩
  · exact r.canonical_canonical
  · show (r.toInterval.canonical d).isEmpty r.cmp ↔ ∀ v, r.toInterval.contains r.cmp v = false
    exact Interval.isEmpty_canonical_iff_forall hd hr

/-- The range that starts above the greatest integer and ends above the least one. -/
def sampleBeyond : Range Int64 :=
  ⟨⟨.above Int64.maxValue, .above Int64.minValue⟩, Order.int64⟩

/-- Even a crossed range beyond the greatest number has a half-open form, and two stretches
    touch. -/
theorem sampleBeyond_halfOpenLaws :
    Domain.int64.Lawful Order.int64 ∧ sampleBeyond.cmp = Order.int64 ∧
      sampleBeyond.HalfOpenLaws .int64 ∧
      (sampleBeyond.canonical .int64).toInterval = ⟨.top, .below (Int64.minValue + 1)⟩ ∧
      (Order.int64 1 3).isLE ∧ Order.int64 3 6 = .lt ∧ Domain.int64.next 3 = some 4 ∧
      (Domain.int64.stretch Order.int64 1 3).Touches (Domain.int64.stretch Order.int64 4 6) :=
  have hlaws := halfOpenLaws_of_lawful Domain.lawful_int64
  ⟨Domain.lawful_int64, rfl, hlaws.1 _ rfl, by decide, by decide, by decide, by decide,
    (hlaws.2 1 3 4 6 (by decide) (by decide) (by decide)).1⟩

end Range

end Allotment
