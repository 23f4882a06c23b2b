import Mathlib.Order.Bounds.Defs
import Allotment.Interval

namespace Allotment

/-!
# The order of the cuts

When `cmp` orders the values by a total preorder, `Cut.compare cmp` orders the cuts by one:

* `Cut.compare_isLE_trans` — the order of the cuts is transitive, so `Cut.compare cmp` is a
  `Std.TransCmp`;
* `Cut.bottom_le` / `Cut.le_top` — the two unbounded cuts are the ends of the order;
* `Cut.precedes_eq_le` — a cut precedes a value exactly when it is at or before the cut below the
  value;
* `Cut.above_le_of_below_lt` — no cut lies between the two cuts beside a value;
* `Cut.precedes_eq_false_iff` — a cut does not precede a value exactly when it is at or after the
  cut above the value;
* `Cut.max_cases` / `Cut.min_cases` — the greater and the lesser of two cuts, with what is before
  and after them;
* `Cut.isGLB_min` / `Cut.isLUB_max` — they are the bounds of the two cuts;
* `Cut.OrderLaws`, `Cut.orderLaws_of_transCmp` — all of this, of every total preorder of the values.

`Cut.Point` carries the order as a `≤`, so that `grind` can close the chains of comparisons that the
proofs about intervals end in.
-/

universe u

namespace Cut

variable {α : Type u} {cmp : α → α → Ordering}

/-! ### The ends of the order, and cuts beside a value -/

/-- No cut is before the one before all values. -/
@[simp, grind .] theorem bottom_le (c : Cut α) : le cmp .bottom c := by
  cases c <;> rfl

/-- No cut is after the one after all values. -/
@[simp, grind .] theorem le_top (c : Cut α) : le cmp c .top := by
  cases c <;> rfl

/-- Only the last cut is not before the last cut. -/
theorem lt_top_iff (c : Cut α) : lt cmp c .top ↔ c ≠ .top := by
  cases c <;> simp [lt, compare, Ordering.isLT]

/-- Only the first cut is not after the first cut. -/
theorem bottom_lt_iff (c : Cut α) : lt cmp .bottom c ↔ c ≠ .bottom := by
  cases c <;> simp [lt, compare, Ordering.isLT]

/-- A cut that is not bounded and has a cut before it is the last one. -/
theorem eq_top_of_lt {a c : Cut α} (h : lt cmp a c) (hc : c.isBounded = false) : c = .top := by
  cases c
  case top => rfl
  case bottom => cases a <;> simp [lt, compare, Ordering.isLT] at h
  all_goals simp [isBounded, endpoint?] at hc

/-- Only the first cut is at or before the first cut. -/
theorem eq_bottom_of_le {c : Cut α} (h : le cmp c .bottom) : c = .bottom := by
  cases c with
  | bottom => rfl
  | below v => cases h
  | above v => cases h
  | top => cases h

/-- Only the last cut is at or after the last cut. -/
theorem eq_top_of_le {c : Cut α} (h : le cmp .top c) : c = .top := by
  cases c with
  | bottom => cases h
  | below v => cases h
  | above v => cases h
  | top => rfl

/-- Only the first cut is at the point of the first cut. -/
theorem eq_bottom_of_same {c : Cut α} (h : same cmp c .bottom) : c = .bottom :=
  eq_bottom_of_le (Ordering.isLE_of_eq_eq (Ordering.isEq_iff_eq_eq.mp h))

/-- Only the last cut is at the point of the last cut. -/
theorem eq_top_of_same {c : Cut α} (h : same cmp c .top) : c = .top := by
  cases c with
  | bottom => cases h
  | below v => cases h
  | above v => cases h
  | top => rfl

/-- A cut at the point of a cut below a value is below a value that the order does not tell apart
    from it. -/
theorem eq_below_of_same {c : Cut α} {v : α} (h : same cmp c (.below v)) :
    ∃ w, c = .below w ∧ cmp w v = .eq := by
  cases c with
  | bottom => cases h
  | below w => exact ⟨w, rfl, by simpa [same, compare] using h⟩
  | above w =>
    revert h
    cases hwv : cmp w v <;> simp [same, compare, hwv, Ordering.then]
  | top => cases h

/-- A cut that is not unbounded stands on one of the sides of a value. -/
theorem cases_beside (c : Cut α) : c = .bottom ∨ c = .top ∨ ∃ v upper, c = upperEnd v upper := by
  cases c with
  | bottom => exact Or.inl rfl
  | below v => exact Or.inr (Or.inr ⟨v, false, rfl⟩)
  | above v => exact Or.inr (Or.inr ⟨v, true, rfl⟩)
  | top => exact Or.inr (Or.inl rfl)

/-- Cuts beside values compare by value, then by side. -/
theorem compare_upperEnd (x y : α) (s t : Bool) :
    compare cmp (upperEnd x s) (upperEnd y t) = (cmp x y).then (Ord.compare s t) := by
  cases s <;> cases t
  case false.true => rfl
  case true.false => rfl
  all_goals
    show cmp x y = (cmp x y).then .eq
    rw [Ordering.then_eq]

/-- In an order that tells all values apart, cuts at the same point are equal. -/
theorem eq_of_same [Std.LawfulEqCmp cmp] {a b : Cut α} (h : same cmp a b) : a = b := by
  cases b with
  | bottom => exact eq_bottom_of_same h
  | below v =>
    obtain ⟨w, rfl, hw⟩ := eq_below_of_same h
    rw [Std.LawfulEqCmp.eq_of_compare hw]
  | above v =>
    cases a with
    | bottom => cases h
    | below w =>
      -- A cut below a value and one above a value are never at the same place.
      revert h
      cases hwv : cmp w v <;> simp [same, compare, hwv, Ordering.then]
    | above w =>
      have hw : cmp w v = .eq := by simpa [same, compare] using h
      rw [Std.LawfulEqCmp.eq_of_compare hw]
    | top => cases h
  | top => exact eq_top_of_same h

/-- A cut precedes a value exactly when it is at or before the cut below the value. -/
theorem precedes_eq_le (c : Cut α) (v : α) : precedes cmp c v = le cmp c (.below v) := by
  cases c <;> simp only [precedes, le, compare]
  case above a => cases cmp a v <;> rfl
  all_goals rfl

/-- No cut lies between the two cuts beside a value. -/
theorem above_le_of_below_lt {v : α} {c : Cut α} (h : lt cmp (.below v) c) :
    le cmp (.above v) c := by
  cases c with
  | bottom => cases h
  | below x =>
    simp only [lt, le, compare] at h ⊢
    cases hvx : cmp v x <;> simp_all [Ordering.then]
  | above x =>
    simp only [lt, le, compare] at h ⊢
    cases hvx : cmp v x <;> simp_all [Ordering.then]
  | top => exact le_top _

/-- The strict order is one of the three answers of the comparison. -/
theorem compare_eq_lt_iff (a b : Cut α) : compare cmp a b = .lt ↔ lt cmp a b := by
  unfold lt
  cases compare cmp a b <;> simp [Ordering.isLT]

/-- Cuts are at the same place when the comparison finds them equal. -/
theorem compare_eq_eq_iff (a b : Cut α) : compare cmp a b = .eq ↔ same cmp a b := by
  unfold same
  cases compare cmp a b <;> simp [Ordering.isEq]

/-! ### The order as a relation -/

/-- A cut, as a point of the order that `cmp` induces on the cuts. -/
structure Point (cmp : α → α → Ordering) where
  cut : Cut α

instance : LE (Point cmp) := ⟨fun a b => Cut.le cmp a.cut b.cut⟩

instance : LT (Point cmp) := ⟨fun a b => Cut.lt cmp a.cut b.cut⟩

@[grind =] theorem le_iff_point (a b : Cut α) : le cmp a b = true ↔ (⟨a⟩ : Point cmp) ≤ ⟨b⟩ :=
  Iff.rfl

@[grind =] theorem lt_iff_point (a b : Cut α) : lt cmp a b = true ↔ (⟨a⟩ : Point cmp) < ⟨b⟩ :=
  Iff.rfl

/-! ### A total preorder -/

/-- Cuts swap their comparison as the values beside them do. -/
theorem compare_eq_swap [Std.OrientedCmp cmp] (a b : Cut α) :
    compare cmp a b = (compare cmp b a).swap := by
  cases a <;> cases b <;> simp only [compare, Ordering.swap_lt, Ordering.swap_eq, Ordering.swap_gt]
  all_goals
    rename_i x y
    have hswap : cmp x y = (cmp y x).swap := Std.OrientedCmp.eq_swap
    revert hswap
    cases cmp x y <;> cases cmp y x <;> simp [Ordering.then]

instance [Std.OrientedCmp cmp] : Std.OrientedCmp (compare cmp) where
  eq_swap := compare_eq_swap _ _

variable [Std.TransCmp cmp]

/-- Values with a side each are in a total preorder by value, then by side. -/
theorem transCmp_sided :
    Std.TransCmp fun p q : α × Bool => (cmp p.1 q.1).then (Ord.compare p.2 q.2) :=
  have : Std.TransCmp fun p q : α × Bool => cmp p.1 q.1 :=
    { eq_swap := Std.OrientedCmp.eq_swap, isLE_trans := Std.TransCmp.isLE_trans }
  inferInstanceAs (Std.TransCmp (compareLex (fun p q : α × Bool => cmp p.1 q.1)
    (compareOn Prod.snd)))

/-- Transitivity, across all kinds of cuts.  Next to an unbounded cut there is nothing to compare,
    so what is left are three cuts beside values, of which the values decide first and the sides
    where the values are equal. -/
theorem compare_isLE_trans {a b c : Cut α} (hab : (compare cmp a b).isLE)
    (hbc : (compare cmp b c).isLE) : (compare cmp a c).isLE := by
  obtain rfl | rfl | ⟨y, t, rfl⟩ := cases_beside b
  · obtain rfl := eq_bottom_of_le hab
    exact bottom_le c
  · obtain rfl := eq_top_of_le hbc
    exact le_top a
  -- The cut between is beside a value.  So are the outer two, or they are at the ends of the order.
  obtain rfl | rfl | ⟨x, s, rfl⟩ := cases_beside a
  · exact bottom_le c
  · cases t <;> cases hab
  obtain rfl | rfl | ⟨z, u, rfl⟩ := cases_beside c
  · cases t <;> cases hbc
  · exact le_top _
  rw [compare_upperEnd] at hab hbc ⊢
  exact transCmp_sided.isLE_trans (a := (x, s)) (b := (y, t)) (c := (z, u)) hab hbc

instance : Std.TransCmp (compare cmp) where
  isLE_trans := compare_isLE_trans

theorem le_refl (a : Cut α) : le cmp a a := by
  simp [le, Std.ReflCmp.compare_self]

/-- A cut that is not after another one is not after any that the other one is not after. -/
theorem le_trans {a b c : Cut α} (hab : le cmp a b) (hbc : le cmp b c) : le cmp a c :=
  compare_isLE_trans hab hbc

/-- Of two cuts one is not after the other. -/
theorem le_total (a b : Cut α) : le cmp a b ∨ le cmp b a := by
  unfold le
  rw [compare_eq_swap a b]
  cases compare cmp b a <;> simp [Ordering.isLE]

/-- Being before is not being at or after. -/
theorem lt_eq_not_le (a b : Cut α) : lt cmp a b = !le cmp b a := by
  unfold lt le
  rw [compare_eq_swap a b]
  cases compare cmp b a <;> rfl

/-- Two cuts are at the same point when neither is before the other. -/
theorem same_eq_le_and_le (a b : Cut α) : same cmp a b = (le cmp a b && le cmp b a) := by
  unfold same le
  rw [compare_eq_swap a b]
  cases compare cmp b a <;> rfl

/-- A cut is greater than another one exactly when the other one is before it. -/
theorem compare_eq_gt_iff (a b : Cut α) : compare cmp a b = .gt ↔ lt cmp b a := by
  rw [Std.OrientedCmp.gt_iff_lt, compare_eq_lt_iff]

instance : Std.IsLinearPreorder (Point cmp) where
  le_refl a := le_refl a.cut
  le_trans _ _ _ := le_trans
  le_total a b := le_total a.cut b.cut

instance : Std.LawfulOrderLT (Point cmp) where
  lt_iff a b := by
    show Cut.lt cmp a.cut b.cut = true ↔ Cut.le cmp a.cut b.cut = true ∧
      ¬ Cut.le cmp b.cut a.cut = true
    have htotal : Cut.le cmp a.cut b.cut = true ∨ Cut.le cmp b.cut a.cut = true := le_total _ _
    rw [lt_eq_not_le]
    cases h : Cut.le cmp b.cut a.cut <;> simp_all

@[grind =] theorem same_iff_point (a b : Cut α) :
    same cmp a b = true ↔ (⟨a⟩ : Point cmp) ≤ ⟨b⟩ ∧ (⟨b⟩ : Point cmp) ≤ ⟨a⟩ := by
  rw [same_eq_le_and_le, Bool.and_eq_true]
  exact Iff.rfl

/-! ### The two cuts beside a value -/

/-- A value lies between the cut below it and the cut above it. -/
theorem below_lt_above (v : α) : lt cmp (.below v) (.above v) := by
  simp [lt, compare, Std.ReflCmp.compare_self, Ordering.then, Ordering.isLT]

/-- The cuts after the cut below a value are those at or after the cut above it. -/
theorem below_lt_iff_above_le (v : α) (c : Cut α) : lt cmp (.below v) c ↔ le cmp (.above v) c := by
  refine ⟨above_le_of_below_lt, fun hle => ?_⟩
  have hbeside : lt cmp (.below v) (.above v) := below_lt_above v
  grind

/-- A cut does not precede a value exactly when it is at or after the cut above the value. -/
theorem precedes_eq_false_iff (c : Cut α) (v : α) :
    precedes cmp c v = false ↔ le cmp (.above v) c := by
  rw [precedes_eq_le, ← below_lt_iff_above_le, lt_eq_not_le, Bool.not_eq_true']

/-- No cut is between the two beside a value. -/
theorem not_between (c : Cut α) (v : α) : ¬ (lt cmp (.below v) c ∧ lt cmp c (.above v)) := by
  rintro ⟨hbelow, habove⟩
  have hle := (below_lt_iff_above_le v c).mp hbelow
  grind

/-! ### The lesser and the greater of two cuts -/

/-- The greater one of two cuts, in terms of the order. -/
theorem max_eq (a b : Cut α) : max cmp a b = if le cmp b a then a else b := by
  unfold max le
  rw [Std.OrientedCmp.isGE_eq_isLE]

variable (cmp) in
/-- The greater of two cuts is one of them, and the other one is not after it. -/
theorem max_cases (a b : Cut α) : max cmp a b = a ∧ le cmp b a ∨ max cmp a b = b ∧ le cmp a b := by
  rw [max_eq]
  split
  · next h => exact Or.inl ⟨rfl, h⟩
  · next h => exact Or.inr ⟨rfl, (le_total a b).resolve_right h⟩

variable (cmp) in
/-- The lesser of two cuts is one of them, and the other one is not before it. -/
theorem min_cases (a b : Cut α) : min cmp a b = a ∧ le cmp a b ∨ min cmp a b = b ∧ le cmp b a := by
  have hmin : min cmp a b = if le cmp a b then a else b := rfl
  rw [hmin]
  split
  · next h => exact Or.inl ⟨rfl, h⟩
  · next h => exact Or.inr ⟨rfl, (le_total a b).resolve_left h⟩

/-- The greater of two cuts is before a third one exactly when both are. -/
theorem max_lt_iff (a b c : Cut α) : lt cmp (max cmp a b) c ↔ lt cmp a c ∧ lt cmp b c := by
  rcases max_cases cmp a b with ⟨h, hle⟩ | ⟨h, hle⟩ <;> rw [h] <;> grind

/-- A cut is not before the greater one of two exactly when it is before neither of them. -/
theorem max_le_iff (a b c : Cut α) : le cmp (max cmp a b) c ↔ le cmp a c ∧ le cmp b c := by
  rcases max_cases cmp a b with ⟨h, hle⟩ | ⟨h, hle⟩ <;> rw [h] <;> grind

/-- A cut is before the greater one of two exactly when it is before one of them. -/
theorem lt_max_iff (a b c : Cut α) : lt cmp c (max cmp a b) ↔ lt cmp c a ∨ lt cmp c b := by
  rcases max_cases cmp a b with ⟨h, hle⟩ | ⟨h, hle⟩ <;> rw [h] <;> grind

/-- The lesser of two cuts is after a third one exactly when both are. -/
theorem lt_min_iff (a b c : Cut α) : lt cmp c (min cmp a b) ↔ lt cmp c a ∧ lt cmp c b := by
  rcases min_cases cmp a b with ⟨h, hle⟩ | ⟨h, hle⟩ <;> rw [h] <;> grind

/-- A cut is not after the lesser one of two exactly when it is after neither of them. -/
theorem le_min_iff (a b c : Cut α) : le cmp c (min cmp a b) ↔ le cmp c a ∧ le cmp c b := by
  rcases min_cases cmp a b with ⟨h, hle⟩ | ⟨h, hle⟩ <;> rw [h] <;> grind

/-- The lesser one of two cuts is not after a cut exactly when one of them is not. -/
theorem min_le_iff (a b c : Cut α) : le cmp (min cmp a b) c ↔ le cmp a c ∨ le cmp b c := by
  rcases min_cases cmp a b with ⟨h, hle⟩ | ⟨h, hle⟩ <;> rw [h] <;> grind

theorem le_max_right (a b : Cut α) : le cmp b (max cmp a b) :=
  ((max_le_iff a b _).mp (le_refl _)).2

theorem min_le_right (a b : Cut α) : le cmp (min cmp a b) b :=
  ((le_min_iff a b _).mp (le_refl _)).2

variable (cmp) in
/-- The lesser of two cuts is the greatest one that is not after either. -/
theorem isGLB_min (a b : Cut α) : IsGLB {(⟨a⟩ : Point cmp), ⟨b⟩} ⟨min cmp a b⟩ := by
  have hbelow : le cmp (min cmp a b) a ∧ le cmp (min cmp a b) b := (le_min_iff a b _).mp (le_refl _)
  constructor
  · rintro p (rfl | rfl)
    · exact hbelow.1
    · exact hbelow.2
  · intro p hp
    exact (le_min_iff a b p.cut).mpr ⟨hp (Or.inl rfl), hp (Or.inr rfl)⟩

variable (cmp) in
/-- The greater of two cuts is the least one that is not before either. -/
theorem isLUB_max (a b : Cut α) : IsLUB {(⟨a⟩ : Point cmp), ⟨b⟩} ⟨max cmp a b⟩ := by
  have habove : le cmp a (max cmp a b) ∧ le cmp b (max cmp a b) := (max_le_iff a b _).mp (le_refl _)
  constructor
  · rintro p (rfl | rfl)
    · exact habove.1
    · exact habove.2
  · intro p hp
    exact (max_le_iff a b p.cut).mpr ⟨hp (Or.inl rfl), hp (Or.inr rfl)⟩

/-! ### All cuts -/

/-- What the order of the cuts has to do with the order of the values that induces it. -/
structure OrderLaws (cmp : α → α → Ordering) : Prop where
  compare_self : ∀ c, compare cmp c c = .eq
  compare_eq_swap : ∀ a b, compare cmp a b = (compare cmp b a).swap
  compare_isLE_trans : ∀ a b c, (compare cmp a b).isLE → (compare cmp b c).isLE →
    (compare cmp a c).isLE
  bottom_isLE : ∀ c, (compare cmp .bottom c).isLE
  isLE_top : ∀ c, (compare cmp c .top).isLE
  precedes_iff : ∀ c v, precedes cmp c v = true ↔ (compare cmp c (.below v)).isLE
  not_precedes_iff : ∀ c v, precedes cmp c v = false ↔ (compare cmp c (.above v)).isGE
  not_between : ∀ c v, ¬ (compare cmp (.below v) c = .lt ∧ compare cmp c (.above v) = .lt)
  isGLB_min : ∀ a b, IsGLB {(⟨a⟩ : Point cmp), ⟨b⟩} ⟨min cmp a b⟩
  isLUB_max : ∀ a b, IsLUB {(⟨a⟩ : Point cmp), ⟨b⟩} ⟨max cmp a b⟩

/-- **Cuts are ordered as their values are.**  Take any total preorder of the values, be there
    distinct values that it does not tell apart or not.  The comparison of the cuts is then a total
    preorder of all cuts, from the one below all values to the one above them.  A cut precedes a
    value when it is at or before the cut below the value, and it does not when it is at or after
    the cut above the value; no cut is between these two.  The lesser and the greater of two cuts
    are their greatest lower and their least upper bound. -/
theorem orderLaws_of_transCmp : OrderLaws cmp where
  compare_self _ := Std.ReflCmp.compare_self
  compare_eq_swap := compare_eq_swap
  compare_isLE_trans _ _ _ := compare_isLE_trans
  bottom_isLE := bottom_le
  isLE_top := le_top
  precedes_iff c v := by
    rw [precedes_eq_le]
    exact Iff.rfl
  not_precedes_iff c v := by
    -- Seen from the cut above the value, at or after is at or before.
    rw [precedes_eq_false_iff, Std.OrientedCmp.isGE_eq_isLE]
    exact Iff.rfl
  not_between c v := by
    rw [compare_eq_lt_iff, compare_eq_lt_iff]
    exact not_between c v
  isGLB_min := isGLB_min cmp
  isLUB_max := isLUB_max cmp

/-- Numbers by their tens, so that the numbers from 10 to 19 are not told apart. -/
def sampleOrder : Nat → Nat → Ordering :=
  compareOn (· / 10)

instance : Std.TransCmp sampleOrder :=
  inferInstanceAs (Std.TransCmp (compareOn (· / 10)))

/-- The laws where different values are equal: the numbers, compared by their tens. -/
theorem sampleOrder_orderLaws :
    Std.TransCmp sampleOrder ∧ OrderLaws sampleOrder ∧ sampleOrder 12 17 = .eq ∧
      compare sampleOrder (.below 12) (.below 17) = .eq ∧
      compare sampleOrder (.above 12) (.below 17) = .gt ∧
      min sampleOrder (.above 12) (.below 17) = .below 17 ∧
      max sampleOrder (.above 12) (.above 17) = .above 12 :=
  ⟨inferInstance, orderLaws_of_transCmp, by decide, by decide, by decide, by decide, by decide⟩

end Cut

end Allotment
