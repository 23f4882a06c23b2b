import Allotment.Proofs.IntervalSet.Cell
import Mathlib.Order.BooleanAlgebra.Set

namespace Allotment

/-!
# The region of a set

The region of a list of members is the set of the cuts that it covers.  The cut above all values is
covered by nothing, so it is left out from the start; then the region of the gaps is the complement
of the region of the members.

A region says more than the values in it: between two adjacent values of a discrete order lie two
cuts.  So lists in normal form are told apart by their regions in every order, and two views are
equal exactly when their regions are.

* `IntervalSet.region` — the cuts that a list of members covers;
* `IntervalSet.sameIntervals_iff` — a normal list is determined by its region;
* `View.region`, `View.equal_iff`, `View.region_complement` — the region of a view;
* `Edit.onRegion`, `Cell.region_applyTo` — what an edit does to a region, from either side.
-/

universe u

variable {α : Type u} {cmp : α → α → Ordering}

/-- A cut at which an interval can start: any but the one above all values. -/
abbrev Cut.Start (α : Type u) : Type u :=
  { c : Cut α // c ≠ .top }

/-- No cut is after the last one. -/
theorem Cut.ne_top_of_lt {a b : Cut α} (h : lt cmp a b) : a ≠ .top := by
  rintro rfl
  cases b <;> cases h

/-- No cut is before the first one. -/
theorem Cut.ne_bottom_of_lt {a b : Cut α} (h : lt cmp a b) : b ≠ .bottom := by
  rintro rfl
  cases a <;> cases h

theorem Cut.bottom_ne_top : (bottom : Cut α) ≠ .top := by
  simp

theorem Cut.below_ne_top (v : α) : below v ≠ .top := by
  simp

/-- The cut before all values. -/
abbrev Cut.Start.bottom : Cut.Start α :=
  ⟨.bottom, bottom_ne_top⟩

/-- The cut below a value. -/
abbrev Cut.Start.below (v : α) : Cut.Start α :=
  ⟨.below v, below_ne_top v⟩

/-- The cuts that an interval spans. -/
def Interval.region (cmp : α → α → Ordering) (r : Interval α) : Set (Cut.Start α) :=
  { c | r.Spans cmp c.1 }

namespace IntervalSet

/-- The cuts that a list of members covers. -/
def region (cmp : α → α → Ordering) (ms : List (Interval α)) : Set (Cut.Start α) :=
  { c | Covers cmp ms c.1 }

variable {ms ns : List (Interval α)} {m n : Interval α}

@[simp] theorem mem_region {c : Cut.Start α} : c ∈ region cmp ms ↔ Covers cmp ms c.1 :=
  Iff.rfl

@[simp] theorem region_nil : region cmp ([] : List (Interval α)) = ∅ :=
  Set.eq_empty_of_forall_notMem fun c => not_covers_nil c.1

theorem region_singleton (m : Interval α) : region cmp [m] = m.region cmp := by
  ext c
  simp [Covers, Interval.region]

theorem region_cons (m : Interval α) (ms : List (Interval α)) :
    region cmp (m :: ms) = m.region cmp ∪ region cmp ms :=
  Set.ext fun c => covers_cons m ms c.1

/-- What a list covers depends on its elements, not on their order or number. -/
theorem region_congr (h : ∀ m, m ∈ ms ↔ m ∈ ns) : region cmp ms = region cmp ns := by
  ext c
  simp only [mem_region, Covers, h]

/-- Regions are equal when the same cuts are covered; the last cut never is. -/
theorem region_eq_iff : region cmp ms = region cmp ns ↔ ∀ c, Covers cmp ms c ↔ Covers cmp ns c := by
  constructor
  · intro h c
    have hne : ∀ {l : List (Interval α)}, Covers cmp l c → c ≠ .top := by
      rintro l ⟨x, -, hspan⟩
      exact Cut.ne_top_of_lt hspan.2
    constructor
    · intro hc
      exact (Set.ext_iff.mp h ⟨c, hne hc⟩).mp hc
    · intro hc
      exact (Set.ext_iff.mp h ⟨c, hne hc⟩).mpr hc
  · intro h
    ext c
    exact h c.1

/-! ### A normal list is determined by its region -/

section

variable [Std.TransCmp cmp]

/-- A normal list covers the cut where its first member starts. -/
theorem Normal.covers_lower (h : Normal cmp (m :: ms)) :
    Covers cmp (m :: ms) m.lower :=
  ⟨m, List.mem_cons_self .., Cut.le_refl _, h.nonempty m (List.mem_cons_self ..)⟩

/-- The first member starts at or before all that a normal list covers. -/
theorem Normal.le_of_covers (h : Normal cmp (m :: ms)) {c : Cut α} (hc : Covers cmp (m :: ms) c) :
    Cut.le cmp m.lower c := by
  rcases (covers_cons m ms c).mp hc with hspan | ⟨x, hx, hspan⟩
  · exact hspan.1
  · have hlt := (List.pairwise_cons.mp h.increasing).1 x hx
    exact Cut.le_trans (by grind) hspan.1

/-- What the later members cover is what the list covers past the end of the first one. -/
theorem Normal.covers_tail (h : Normal cmp (m :: ms)) (c : Cut α) :
    Covers cmp ms c ↔ Covers cmp (m :: ms) c ∧ Cut.le cmp m.upper c := by
  rw [covers_cons]
  constructor
  · rintro ⟨x, hx, hspan⟩
    have hlt := (List.pairwise_cons.mp h.apart).1 x hx
    exact ⟨Or.inr ⟨x, hx, hspan⟩, Cut.le_trans (by grind) hspan.1⟩
  · rintro ⟨hspan | hc, hle⟩
    · -- The first member does not span a cut at or past its end.
      unfold Interval.Spans at hspan
      grind
    · exact hc

/-- Of two normal lists that cover the same, the first member of the one encloses that of the
    other. -/
theorem Normal.encloses_head (hms : Normal cmp (m :: ms)) (hns : Normal cmp (n :: ns))
    (h : ∀ c, Covers cmp (m :: ms) c ↔ Covers cmp (n :: ns) c) : n.encloses cmp m := by
  have hn := hns.nonempty n (List.mem_cons_self ..)
  have hlower : Cut.le cmp n.lower m.lower := hns.le_of_covers ((h _).mp hms.covers_lower)
  have hlower' : Cut.le cmp m.lower n.lower := hms.le_of_covers ((h _).mpr hns.covers_lower)
  refine (Interval.encloses_iff n m).mpr ⟨hlower, ?_⟩
  -- Otherwise `m` goes on past the end of `n`, where the other list has its gap.
  by_contra hupper
  have hspan : m.Spans cmp n.upper := by
    unfold Interval.Spans
    grind
  exact hns.not_covers_upper (List.mem_cons_self ..) ((h _).mp ⟨m, List.mem_cons_self .., hspan⟩)

/-- Intervals with the same bounds span the same cuts. -/
theorem spans_iff_of_hasBoundsOf (h : m.hasBoundsOf cmp n) (c : Cut α) :
    m.Spans cmp c ↔ n.Spans cmp c := by
  unfold Interval.hasBoundsOf at h
  rw [Bool.and_eq_true] at h
  unfold Interval.Spans
  grind

/-- **The normal form is unique.**  Two normal lists have the same intervals exactly when they cover
    the same cuts. -/
theorem sameIntervals_iff (hms : Normal cmp ms) (hns : Normal cmp ns) :
    View.sameIntervals cmp ms ns ↔ region cmp ms = region cmp ns := by
  rw [region_eq_iff]
  induction ms generalizing ns with
  | nil =>
    cases ns with
    | nil => simp [View.sameIntervals]
    | cons n ns =>
      simp only [View.sameIntervals, Bool.false_eq_true, false_iff]
      exact fun h => not_covers_nil _ ((h _).mpr hns.covers_lower)
  | cons m ms ih =>
    cases ns with
    | nil =>
      simp only [View.sameIntervals, Bool.false_eq_true, false_iff]
      exact fun h => not_covers_nil _ ((h _).mp hms.covers_lower)
    | cons n ns =>
      have htail := ih (hms.sublist (List.sublist_cons_self m ms))
        (hns.sublist (List.sublist_cons_self n ns))
      rw [View.sameIntervals, Bool.and_eq_true, htail]
      constructor
      · rintro ⟨hbounds, hrest⟩ c
        rw [covers_cons, covers_cons, hrest c, spans_iff_of_hasBoundsOf hbounds]
      · intro h
        have hmn := (Interval.encloses_iff n m).mp (hms.encloses_head hns h)
        have hnm := (Interval.encloses_iff m n).mp (hns.encloses_head hms fun c => (h c).symm)
        refine ⟨?_, fun c => ?_⟩
        · unfold Interval.hasBoundsOf
          rw [Bool.and_eq_true]
          grind
        · -- Both first members end at the same cut, so the rests cover the same past it.
          rw [hms.covers_tail, hns.covers_tail, h c]
          grind

/-- A normal list that covers nothing is empty. -/
theorem Normal.eq_nil (h : Normal cmp ms) (hregion : region cmp ms = ∅) : ms = [] := by
  have hsame := (sameIntervals_iff h normal_nil).mpr (hregion.trans region_nil.symm)
  cases ms with
  | nil => rfl
  | cons m ms => cases hsame

/-- A normal list that covers everything is the one interval of all values. -/
theorem Normal.eq_all (h : Normal cmp ms) (hregion : region cmp ms = Set.univ) : ms = [.all] := by
  have hall : Normal cmp [(.all : Interval α)] := normal_singleton
    (by simp [Interval.all, Cut.lt_top_iff])
  have huniv : region cmp [(.all : Interval α)] = Set.univ := by
    refine Set.eq_univ_of_forall fun c => ⟨.all, List.mem_singleton_self _, Cut.bottom_le c.1, ?_⟩
    exact (Cut.lt_top_iff c.1).mpr c.2
  -- The single interval without ends covers everything as well, and a region has one normal form
  -- only.
  have hsame := (sameIntervals_iff h hall).mpr (hregion.trans huniv.symm)
  cases ms with
  | nil => cases hsame
  | cons m ms =>
    simp only [View.sameIntervals, Interval.hasBoundsOf, Bool.and_eq_true] at hsame
    have hm : m = .all := congrArg₂ Interval.mk (Cut.eq_bottom_of_same hsame.1.1)
      (Cut.eq_top_of_same hsame.1.2)
    cases ms with
    | nil => rw [hm]
    | cons n ns => cases hsame.2

end

/-- The gaps cover exactly what the members leave out. -/
theorem region_gaps {s : IntervalSet α} [Std.TransCmp s.cmp] (hs : Normal s.cmp s.members) :
    region s.cmp s.gaps = (region s.cmp s.members)ᶜ := by
  ext c
  have hlt : Cut.lt s.cmp c.1 .top := (Cut.lt_top_iff c.1).mpr c.2
  rw [Set.mem_compl_iff, mem_region, mem_region, gaps,
    covers_gapsFrom hs fun m _ => Cut.bottom_le m.lower]
  simp [hlt]

end IntervalSet

/-! ### Views -/

namespace View

/-- A view of a set in normal form that is read in the order `cmp`. -/
structure Sound (cmp : α → α → Ordering) (w : View α) : Prop where
  order : w.base.cmp = cmp
  normal : IntervalSet.Normal cmp w.base.members

/-- The cuts that the intervals of a view cover. -/
def region (cmp : α → α → Ordering) (w : View α) : Set (Cut.Start α) :=
  IntervalSet.region cmp w.intervals

variable {w o : View α}

/-- The outside of a sound view is sound. -/
theorem Sound.complement (hw : w.Sound cmp) : w.complement.Sound cmp :=
  ⟨hw.order, hw.normal⟩

variable [Std.TransCmp cmp]

/-- The intervals of a sound view are in normal form. -/
theorem Sound.intervals (hw : w.Sound cmp) : IntervalSet.Normal cmp w.intervals := by
  obtain ⟨rfl, hnormal⟩ := hw
  exact normal_intervals hnormal

/-- A copy of a sound view, as a set of its own. -/
theorem Sound.copy_eq (hw : w.Sound cmp) : w.copy = ⟨cmp, w.intervals⟩ := by
  obtain ⟨rfl, hnormal⟩ := hw
  exact View.copy_eq hnormal

/-- A view contains a value exactly when the cut below the value is in its region. -/
theorem Sound.contains_iff (hw : w.Sound cmp) (v : α) :
    w.contains v ↔ Cut.Start.below v ∈ w.region cmp := by
  obtain ⟨rfl, hnormal⟩ := hw
  exact View.contains_iff_covers hnormal v

/-- Two views are equal exactly when they cover the same cuts. -/
theorem equal_iff (hw : w.Sound cmp) (ho : o.Sound cmp) :
    w.equal (some o) ↔ w.region cmp = o.region cmp := by
  show sameIntervals w.base.cmp w.intervals o.intervals ↔ _
  rw [hw.order]
  exact IntervalSet.sameIntervals_iff hw.intervals ho.intervals

/-- The other side of a view covers exactly what the view leaves out. -/
theorem region_complement (hw : w.Sound cmp) : w.complement.region cmp = (w.region cmp)ᶜ := by
  obtain ⟨base, side⟩ := w
  obtain ⟨rfl, hnormal⟩ := hw
  cases side with
  | inside => exact IntervalSet.region_gaps hnormal
  | outside =>
    show IntervalSet.region base.cmp base.members = (IntervalSet.region base.cmp base.gaps)ᶜ
    rw [IntervalSet.region_gaps hnormal, compl_compl]

end View

/-! ### Edits -/

/-- What an edit does to the cuts that a set covers. -/
def Edit.onRegion (cmp : α → α → Ordering) (a : Set (Cut.Start α)) : Edit α → Set (Cut.Start α)
  | .add r => a ∪ (Range.Optional.cuts r).region cmp
  | .remove r => a \ (Range.Optional.cuts r).region cmp
  | .addAll rs => a ∪ IntervalSet.region cmp (rs.getD [])
  | .removeAll rs => a \ IntervalSet.region cmp (rs.getD [])
  | .clear => ∅

/-- The interval of all values spans every cut at which an interval can start. -/
theorem Interval.region_all : (all : Interval α).region cmp = Set.univ := by
  refine Set.eq_univ_of_forall fun c => ⟨Cut.bottom_le c.1, ?_⟩
  exact (Cut.lt_top_iff c.1).mpr c.2

/-- Seen from the other side, an edit and its flip do the same. -/
theorem Edit.onRegion_flip (a : Set (Cut.Start α)) (e : Edit α) :
    (e.flip cmp).onRegion cmp a = (e.onRegion cmp aᶜ)ᶜ := by
  -- To remove from the outside is to add to the inside, and the other way around.
  have hadd : ∀ b : Set (Cut.Start α), a \ b = (aᶜ ∪ b)ᶜ := by
    intro b
    rw [Set.compl_union, compl_compl, Set.sdiff_eq]
  have hremove : ∀ b : Set (Cut.Start α), a ∪ b = (aᶜ \ b)ᶜ := by
    intro b
    rw [Set.sdiff_eq, Set.compl_inter, compl_compl, compl_compl]
  cases e with
  | add r => exact hadd _
  | remove r => exact hremove _
  | addAll rs => exact hadd _
  | removeAll rs => exact hremove _
  | clear =>
    show a ∪ Interval.region cmp .all = ∅ᶜ
    rw [Interval.region_all, Set.union_univ, Set.compl_empty]

namespace Cell

variable {c : Cell α}

/-- A sound cell has sound views on both sides. -/
theorem Sound.view (hc : c.Sound cmp) (side : Side) : (c.view side).Sound cmp :=
  ⟨hc.order, hc.normal⟩

variable [Std.TransCmp cmp]

/-- An edit of a cell that may be edited changes the region as `Edit.onRegion` says. -/
theorem region_apply (hc : c.Sound cmp) (hread : c.isReadOnly = false) {e : Edit α}
    (he : e.ReadIn cmp) :
    IntervalSet.region cmp (c.apply e).1.set.members =
      e.onRegion cmp (IntervalSet.region cmp c.set.members) := by
  ext k
  cases e with
  | add r => exact (applyRange_spec acts_insert hc he).2 hread k.1
  | remove r => exact (applyRange_spec acts_erase hc he).2 hread k.1
  | addAll rs => exact (applyAll_spec acts_insert hc rs).2 hread k.1
  | removeAll rs => exact (applyAll_spec acts_erase hc rs).2 hread k.1
  | clear => simp [apply, hread, change, IntervalSet.empty, Edit.onRegion]

/-- The same from either side: what a side covers after an edit through it. -/
theorem region_applyTo (hc : c.Sound cmp) (hread : c.isReadOnly = false) (side : Side) {e : Edit α}
    (he : e.ReadIn cmp) :
    ((c.applyTo side e).1.view side).region cmp = e.onRegion cmp ((c.view side).region cmp) := by
  cases side with
  | inside => exact region_apply hc hread he
  | outside =>
    have hafter : ((c.applyTo .outside e).1.view .inside).Sound cmp :=
      (sound_applyTo hc .outside he).view _
    have hregion : ((c.applyTo .outside e).1.view .inside).region cmp =
        (e.flip cmp).onRegion cmp ((c.view .inside).region cmp) := by
      obtain rfl := hc.order
      exact region_apply hc hread he.flip
    show ((c.applyTo .outside e).1.view .inside).complement.region cmp =
      e.onRegion cmp ((c.view .inside).complement.region cmp)
    rw [View.region_complement hafter, View.region_complement (hc.view .inside), hregion,
      Edit.onRegion_flip, compl_compl]

end Cell

end Allotment
