import Mathlib.Data.List.Find
import Allotment.Proofs.IntervalSet.Queries
import Allotment.Proofs.IntervalSet.Walk

namespace Allotment

/-!
# Queries of the outside

The outside of a set does not hold its gaps.  It counts them from the number of the members and the
two outer ones, finds the gap next to a cut from the two members around it, and asks the members
about the rest.  The list of the gaps is the measure of all these answers.

* `IntervalSet.length_gapsFrom`, `IntervalSet.bounds?_gapsFrom` — the number of the gaps from a cut
  on, and their ends;
* `IntervalSet.gapAt_spec` — the gap around a cut that no member covers;
* `IntervalSet.gapEncloses_iff` — where a member covers the start of a range, the wrong gap is
  looked at;
* `View.GapLaws`, `View.gapLaws_of_reachable` — the queries of the outside against scans of the
  gaps;
* `View.encloses_complement_of_reachable` — the ranges that the outside encloses, and those that a
  copy of it encloses.
-/

universe u

variable {α : Type u} {cmp : α → α → Ordering}

/-- Only one cut is before all values. -/
theorem Cut.isBottom_eq_false {c : Cut α} (hc : c ≠ .bottom) : c.isBottom = false := by
  cases c with
  | bottom => exact absurd rfl hc
  | below v => rfl
  | above v => rfl
  | top => rfl

/-- A range that is not empty in its own order ends after its start. -/
theorem Range.lt_of_isEmpty_eq_false [Std.TransCmp cmp] {r : Range α} (hr : r.cmp = cmp)
    (h : r.isEmpty = false) : Cut.lt cmp r.lower r.upper := by
  obtain ⟨i, c⟩ := r
  obtain rfl : c = cmp := hr
  exact (Interval.isEmpty_eq_false_iff i).mp h

namespace IntervalSet

variable {s : IntervalSet α} {ms : List (Interval α)} {m g : Interval α} {l c : Cut α}

/-! ### The number of the gaps, and their ends -/

/-- A set that starts with all lesser values has no gap before its first member. -/
theorem gapsFrom_cons_of_bottom (h : m.lower = .bottom) :
    gapsFrom cmp .bottom (m :: ms) = gapsFrom cmp m.upper ms := by
  rw [gapsFrom, h]
  rfl

/-- The bounds of a longer list end where those of the shorter one do. -/
theorem bounds?_cons_eq (g : Interval α) (gs : List (Interval α)) :
    bounds? (g :: gs) = some ⟨g.lower, ((bounds? gs).map Interval.upper).getD g.upper⟩ := by
  rw [bounds?_cons]
  cases gs with
  | nil => rfl
  | cons n gs =>
    rw [bounds?_cons, List.getLast?_cons]
    rfl

variable [Std.TransCmp cmp]

/-- The gap before the first member is one of the gaps if it is not empty. -/
theorem gapsFrom_cons_of_lt (h : Cut.lt cmp l m.lower) :
    gapsFrom cmp l (m :: ms) = ⟨l, m.lower⟩ :: gapsFrom cmp m.upper ms := by
  have hne : (⟨l, m.lower⟩ : Interval α).isEmpty cmp = false :=
    (Interval.isEmpty_eq_false_iff _).mpr h
  rw [gapsFrom, keepNonempty, hne]
  rfl

/-- There is a gap before each member and one after the last, unless that one has no end. -/
theorem length_gapsFrom (hms : Normal cmp ms) (hl : ∀ m ∈ ms, Cut.lt cmp l m.lower) :
    (gapsFrom cmp l ms).length =
      ms.length + if ((ms.getLast?.map Interval.upper).getD l).isTop then 0 else 1 := by
  induction ms generalizing l with
  | nil => cases l <;> rfl
  | cons m ms ih =>
    have hrest := ih (hms.sublist (List.sublist_cons_self m ms)) (List.pairwise_cons.mp hms.apart).1
    have hend : ((m :: ms).getLast?.map Interval.upper).getD l =
        (ms.getLast?.map Interval.upper).getD m.upper := by
      rw [List.getLast?_cons]
      cases ms.getLast? <;> rfl
    rw [gapsFrom_cons_of_lt (hl m (List.mem_cons_self ..)), List.length_cons, hrest, hend,
      List.length_cons]
    omega

/-- The gaps go from the cut where they are asked for to the last cut, or to the start of a last
    member without an end. -/
theorem bounds?_gapsFrom (hms : Normal cmp ms) (hl : ∀ m ∈ ms, Cut.lt cmp l m.lower) :
    bounds? (gapsFrom cmp l ms) =
      match ms.getLast? with
      | none => if l.isTop then none else some ⟨l, .top⟩
      | some last => some ⟨l, if last.upper.isTop then last.lower else .top⟩ := by
  induction ms generalizing l with
  | nil => cases l <;> rfl
  | cons m ms ih =>
    have hrest := ih (hms.sublist (List.sublist_cons_self m ms)) (List.pairwise_cons.mp hms.apart).1
    rw [gapsFrom_cons_of_lt (hl m (List.mem_cons_self ..)), bounds?_cons_eq, hrest,
      List.getLast?_cons]
    cases ms.getLast? with
    | none => cases hupper : m.upper <;> simp [hupper, Cut.isTop]
    | some n => rfl

section

variable [Std.TransCmp s.cmp]

/-- At every cut but the last, a gap or a member goes on. -/
theorem covers_gaps_iff (hs : Normal s.cmp s.members) (hc : c ≠ .top) :
    Covers s.cmp s.gaps c ↔ ¬ Covers s.cmp s.members c :=
  Set.ext_iff.mp (region_gaps hs) ⟨c, hc⟩

/-- A set leaves no gap exactly when it encloses the interval of all values. -/
theorem isFull_iff (hs : Normal s.cmp s.members) : s.isFull ↔ s.gaps = [] := by
  unfold isFull
  constructor
  · intro hfull
    refine (normal_gaps hs).eq_nil (Set.eq_empty_of_forall_notMem fun c hc => ?_)
    have hspan : (.all : Interval α).Spans s.cmp c.1 := ⟨Cut.bottom_le c.1,
      (Cut.lt_top_iff c.1).mpr c.2⟩
    exact (covers_gaps_iff hs c.2).mp hc (covers_of_enclosesInterval hs hfull hspan)
  · intro hnil
    refine enclosesInterval_of_covers hs ((Cut.lt_top_iff _).mpr Cut.bottom_ne_top) fun c hc => ?_
    by_contra hnot
    have hcovers := (covers_gaps_iff hs (Cut.ne_top_of_lt hc.2)).mpr hnot
    rw [hnil] at hcovers
    exact not_covers_nil c hcovers

/-- The number of the gaps follows from the number of the members and the two outer ones. -/
theorem gapCount_eq (hs : Normal s.cmp s.members) : s.gapCount = s.gaps.length := by
  unfold gapCount gaps
  cases hms : s.members with
  | nil => rfl
  | cons m ms =>
    rw [hms] at hs
    have hrest := length_gapsFrom (hs.sublist (List.sublist_cons_self m ms))
      (List.pairwise_cons.mp hs.apart).1
    have hend : (ms.getLast?.map Interval.upper).getD m.upper = (ms.getLast?.getD m).upper := by
      cases ms.getLast? <;> rfl
    rw [hend] at hrest
    rw [List.getLast?_cons]
    -- The first gap comes before the first member, unless there is nothing before it.
    by_cases hbottom : m.lower = .bottom
    · rw [gapsFrom_cons_of_bottom hbottom, hrest]
      simp [hbottom, Cut.isBottom]
    · rw [gapsFrom_cons_of_lt ((Cut.bottom_lt_iff _).mpr hbottom)]
      simp only [List.head?_cons, List.length_cons, hrest, Cut.isBottom_eq_false hbottom,
        Bool.false_eq_true, if_false]
      omega

/-- The span of the outside, which is computed from the two outer members, goes from the first gap
    to the last one. -/
theorem gapSpan?_eq_bounds? (hs : Normal s.cmp s.members) : s.gapSpan? = bounds? s.gaps := by
  unfold gapSpan?
  by_cases hfull : s.isFull
  · rw [if_pos hfull, (isFull_iff hs).mp hfull]
    rfl
  rw [if_neg hfull]
  rw [isFull_iff hs] at hfull
  unfold gaps at hfull ⊢
  cases hms : s.members with
  | nil => rfl
  | cons m ms =>
    rw [hms] at hs hfull
    have hapart := (List.pairwise_cons.mp hs.apart).1
    by_cases hbottom : m.lower = .bottom
    · -- The first gap is the one after the first member.
      rw [gapsFrom_cons_of_bottom hbottom] at hfull ⊢
      rw [bounds?_gapsFrom (hs.sublist (List.sublist_cons_self m ms)) hapart, List.getLast?_cons]
      cases hlast : ms.getLast? with
      | none =>
        have htop : m.upper ≠ .top := by
          intro htop
          rw [List.getLast?_eq_none_iff.mp hlast, htop] at hfull
          exact hfull rfl
        simp [hbottom, Cut.isBottom, Cut.isTop_eq_false htop]
      | some last => simp [hbottom, Cut.isBottom]
    · have hlower : ∀ n ∈ m :: ms, Cut.lt s.cmp .bottom n.lower := by
        refine List.forall_mem_cons.mpr ⟨(Cut.bottom_lt_iff _).mpr hbottom, fun n hn => ?_⟩
        exact (Cut.bottom_lt_iff _).mpr (Cut.ne_bottom_of_lt (hapart n hn))
      rw [bounds?_gapsFrom hs hlower, List.getLast?_cons]
      simp [Cut.isBottom_eq_false hbottom]

end

/-! ### The gap around a cut -/

/-- The stretch around a cut, from the cut `l` on, between the last member that starts up to the cut
    and the first one that starts after it. -/
def gapAround (cmp : α → α → Ordering) (l : Cut α) (ms : List (Interval α)) (c : Cut α) :
    Interval α :=
  ⟨((ms.filter fun m => Cut.le cmp m.lower c).getLast?.map Interval.upper).getD l,
    ((ms.find? fun m => Cut.lt cmp c m.lower).map Interval.lower).getD .top⟩

/-- A member that starts up to the cut leaves the gap to the members after it. -/
theorem gapAround_cons_of_le (h : Cut.le cmp m.lower c) :
    gapAround cmp l (m :: ms) c = gapAround cmp m.upper ms c := by
  have hlt : Cut.lt cmp c m.lower = false := by grind
  unfold gapAround
  rw [List.filter_cons, h, if_pos rfl, List.getLast?_cons, List.find?_cons, hlt]
  cases (ms.filter fun m => Cut.le cmp m.lower c).getLast? <;> rfl

/-- Where the first member starts after the cut, the gap ends there. -/
theorem gapAround_cons_of_lt (hms : Increasing cmp (m :: ms)) (h : Cut.lt cmp c m.lower) :
    gapAround cmp l (m :: ms) c = ⟨l, m.lower⟩ := by
  have hnone : (m :: ms).filter (fun m => Cut.le cmp m.lower c) = [] := by
    refine List.filter_eq_nil_iff.mpr (List.forall_mem_cons.mpr ⟨by grind, fun x hx => ?_⟩)
    have hx' := (List.pairwise_cons.mp hms).1 x hx
    grind
  unfold gapAround
  rw [hnone, List.find?_cons, h]
  rfl

/-- By induction on the members: a cut that no member covers is before the first one, where the gap
    before it is, or past its end, where the gaps after it start. -/
theorem gapAround_spec (hms : Normal cmp ms) (hlc : Cut.le cmp l c) (hc : c ≠ .top)
    (hnot : ¬ Covers cmp ms c) :
    gapAround cmp l ms c ∈ gapsFrom cmp l ms ∧ (gapAround cmp l ms c).Spans cmp c := by
  induction ms generalizing l with
  | nil =>
    have hlt : Cut.lt cmp c .top := (Cut.lt_top_iff c).mpr hc
    exact ⟨(mem_keepNonempty _ _).mpr ⟨rfl, by grind⟩, hlc, hlt⟩
  | cons m ms ih =>
    rw [covers_cons, not_or] at hnot
    by_cases hle : Cut.le cmp m.lower c
    · -- The cut is not in the member, so it is past its end.
      have hend : Cut.le cmp m.upper c := by
        have hspan := hnot.1
        unfold Interval.Spans at hspan
        grind
      obtain ⟨hmem, hspan⟩ := ih hms.of_cons.1 hend hnot.2
      rw [gapAround_cons_of_le hle]
      exact ⟨List.mem_append_right _ hmem, hspan⟩
    · have hlt : Cut.lt cmp c m.lower := by grind
      rw [gapAround_cons_of_lt hms.increasing hlt]
      exact ⟨List.mem_append_left _ ((mem_keepNonempty _ _).mpr ⟨rfl, by grind⟩), hlc, hlt⟩

/-- A member that does not start with all lesser values has a gap before it. -/
theorem exists_gap_before (hms : Normal cmp ms) (hm : m ∈ ms) (hl : Cut.lt cmp l m.lower) :
    ∃ g ∈ gapsFrom cmp l ms, g.upper = m.lower := by
  induction ms generalizing l with
  | nil => cases hm
  | cons n ms ih =>
    rcases List.mem_cons.mp hm with rfl | hm
    · exact ⟨⟨l, m.lower⟩, List.mem_append_left _ ((mem_keepNonempty _ _).mpr ⟨rfl, hl⟩), rfl⟩
    · obtain ⟨g, hg, hupper⟩ := ih hms.of_cons.1 hm ((List.pairwise_cons.mp hms.apart).1 m hm)
      exact ⟨g, List.mem_append_right _ hg, hupper⟩

variable [Std.TransCmp s.cmp]

/-- The gap that is looked up for a cut is the stretch around it: the member after the last one up
    to the cut is the first one after the cut. -/
theorem gapAt_eq_gapAround (hs : Normal s.cmp s.members) (c : Cut α) :
    s.gapAt c = gapAround s.cmp .bottom s.members c := by
  show _ = (⟨((s.floor? c).map Interval.upper).getD .bottom,
    ((s.higher? c).map Interval.lower).getD .top⟩ : Interval α)
  unfold gapAt
  cases hfloor : s.floor? c with
  | none =>
    -- No member starts up to the cut, so the first one of all is the first one after it.
    have hhigher : s.members.head? = s.higher? c := by
      have hafter := floor?_eq_none hfloor
      unfold higher?
      cases hms : s.members with
      | nil => rfl
      | cons m ms =>
        have hm := hafter m (hms ▸ List.mem_cons_self ..)
        have hlt : Cut.lt s.cmp c m.lower := by grind
        rw [List.find?_cons, hlt]
        rfl
    show (⟨.bottom, (s.members.head?.map Interval.lower).getD .top⟩ : Interval α) = _
    rw [hhigher]
    rfl
  | some m =>
    obtain ⟨hm, hlower, hlast⟩ := floor?_eq_some hs hfloor
    -- No member starts between the last one up to the cut and the cut.
    have hhigher : s.higher? m.lower = s.higher? c := by
      refine List.find?_congr fun x hx => ?_
      have hx' := hlast x hx
      have hne := hs.nonempty x hx
      rw [Bool.eq_iff_iff]
      grind
    show (⟨m.upper, ((s.higher? m.lower).map Interval.lower).getD .top⟩ : Interval α) = _
    rw [hhigher]
    rfl

/-- The gap that is looked up for a cut that no member covers is one of the gaps, and the cut is in
    it. -/
theorem gapAt_spec (hs : Normal s.cmp s.members) (hc : c ≠ .top)
    (hnot : ¬ Covers s.cmp s.members c) : s.gapAt c ∈ s.gaps ∧ (s.gapAt c).Spans s.cmp c := by
  rw [gapAt_eq_gapAround hs]
  exact gapAround_spec hs (Cut.bottom_le c) hc hnot

/-- For a cut that a member covers, the gap after that member is looked up. -/
theorem lt_gapAt_lower (hs : Normal s.cmp s.members) (hm : m ∈ s.members)
    (hspan : m.Spans s.cmp c) : Cut.lt s.cmp c (s.gapAt c).lower := by
  unfold Interval.Spans at hspan
  unfold gapAt
  rw [floor?_of_reaches hs hm hspan.1 (by grind)]
  exact hspan.2

/-! ### Queries -/

/-- The gap that is looked up for a value is the one that contains it, if there is one. -/
theorem gapOf?_eq_some_iff (hs : Normal s.cmp s.members) (v : α) (g : Interval α) :
    s.gapOf? v = some g ↔ g ∈ s.gaps ∧ g.contains s.cmp v := by
  unfold gapOf?
  by_cases hv : s.contains v
  · rw [if_pos hv]
    simp only [reduceCtorEq, false_iff, not_and]
    intro hg hgv
    have hgaps : Covers s.cmp s.gaps (.below v) := ⟨g, hg, (Interval.contains_iff_spans g v).mp hgv⟩
    -- A value of the set is in no gap.
    exact (covers_gaps hs v).mp hgaps ((contains_iff_covers hs v).mp hv)
  · rw [if_neg hv, Option.some_inj]
    rw [contains_iff_covers hs] at hv
    obtain ⟨hmem, hspan⟩ := gapAt_spec hs (Cut.below_ne_top v) hv
    constructor
    · rintro rfl
      exact ⟨hmem, (Interval.contains_iff_spans _ v).mpr hspan⟩
    · -- Two gaps have no value in common.
      rintro ⟨hg, hgv⟩
      exact (normal_gaps hs).eq_of_spans hmem hg hspan ((Interval.contains_iff_spans g v).mp hgv)

/-- An interval that no single member encloses overlaps a gap. -/
theorem not_enclosesInterval_iff (hs : Normal s.cmp s.members) {r : Interval α}
    (hr : Cut.lt s.cmp r.lower r.upper) :
    ¬ s.enclosesInterval r ↔ ∃ g ∈ s.gaps, g.overlaps s.cmp r := by
  simp only [Interval.overlaps_iff_spans]
  constructor
  · intro h
    -- The members leave out a cut of the interval, and a gap goes on there.
    have hexists : ∃ c, r.Spans s.cmp c ∧ ¬ Covers s.cmp s.members c := by
      by_contra hall
      simp only [not_exists, not_and, not_not] at hall
      exact h (enclosesInterval_of_covers hs hr hall)
    obtain ⟨c, hc, hnot⟩ := hexists
    obtain ⟨g, hg, hspan⟩ := (covers_gaps_iff hs (Cut.ne_top_of_lt hc.2)).mpr hnot
    exact ⟨g, hg, c, hspan, hc⟩
  · rintro ⟨g, hg, c, hgc, hrc⟩ h
    exact (covers_gaps_iff hs (Cut.ne_top_of_lt hrc.2)).mp ⟨g, hg, hgc⟩
      (covers_of_enclosesInterval hs h hrc)

/-- The gap that is looked up for a range starts with the range or before it unless a member covers
    the start of the range; in that case it comes too late, even if an earlier gap encloses the
    range. -/
theorem gapEncloses_iff (hs : Normal s.cmp s.members) {r : Range α} (hvalid : r.isValid) :
    s.gapEncloses (some r) ↔
      (∃ g ∈ s.gaps, g.encloses s.cmp r.toInterval) ∧ ¬ Covers s.cmp s.members r.lower := by
  have htop : r.lower ≠ .top := Interval.lower_ne_top_of_isValid hvalid
  show (r.isValid && (!(s.gapAt r.lower).isEmpty s.cmp &&
    (s.gapAt r.lower).encloses s.cmp r.toInterval)) = true ↔ _
  rw [hvalid, Bool.true_and, Bool.and_eq_true, Bool.not_eq_true', Interval.isEmpty_eq_false_iff]
  constructor
  · rintro ⟨-, henc⟩
    have hnot : ¬ Covers s.cmp s.members r.lower := by
      rintro ⟨m, hm, hspan⟩
      have hlt := lt_gapAt_lower hs hm hspan
      have hle := ((Interval.encloses_iff _ _).mp henc).1
      grind
    exact ⟨⟨_, (gapAt_spec hs htop hnot).1, henc⟩, hnot⟩
  · rintro ⟨⟨g, hg, henc⟩, hnot⟩
    obtain ⟨hmem, hspan⟩ := gapAt_spec hs htop hnot
    have hne := (normal_gaps hs).nonempty _ hmem
    refine ⟨hne, (Interval.encloses_iff _ _).mpr ⟨hspan.1, ?_⟩⟩
    -- A gap that encloses the range is the one around its start, or comes before it.
    have henc' := (Interval.encloses_iff _ _).mp henc
    unfold Interval.Spans at hspan
    rcases (normal_gaps hs).eq_or_apart hg hmem with rfl | hapart | hapart
    · exact henc'.2
    · grind
    · grind

/-- For a range that is not empty in the order of the set, the gap that is looked up is the right
    one. -/
theorem gapEncloses_iff_of_lt (hs : Normal s.cmp s.members) {r : Range α} (hvalid : r.isValid)
    (hlt : Cut.lt s.cmp r.lower r.upper) :
    s.gapEncloses (some r) ↔ ∃ g ∈ s.gaps, g.encloses s.cmp r.toInterval := by
  rw [gapEncloses_iff hs hvalid]
  refine and_iff_left_of_imp fun ⟨g, hg, henc⟩ => ?_
  have hspan : g.Spans s.cmp r.lower := Interval.spans_of_encloses henc ⟨Cut.le_refl _, hlt⟩
  exact (covers_gaps_iff hs (Cut.ne_top_of_lt hlt)).mp ⟨g, hg, hspan⟩

/-- A range that starts within a member is enclosed by a gap exactly when it ends at or before the
    start of that member. -/
theorem exists_gap_encloses_iff (hs : Normal s.cmp s.members) {r : Range α} (hvalid : r.isValid)
    (hm : m ∈ s.members) (hspan : m.Spans s.cmp r.lower) :
    (∃ g ∈ s.gaps, g.encloses s.cmp r.toInterval) ↔ Cut.le s.cmp r.upper m.lower := by
  have hmne := hs.nonempty m hm
  constructor
  · rintro ⟨g, hg, henc⟩
    have henc' := (Interval.encloses_iff _ _).mp henc
    have hgne := (normal_gaps hs).nonempty g hg
    have hapart : ¬ g.overlaps s.cmp m := by
      rw [Interval.overlaps_iff_spans]
      rintro ⟨c, hgc, hmc⟩
      exact (covers_gaps_iff hs (Cut.ne_top_of_lt hmc.2)).mp ⟨g, hg, hgc⟩ ⟨m, hm, hmc⟩
    rw [Interval.overlaps_iff] at hapart
    unfold Interval.Spans at hspan
    grind
  · -- The gap before the member goes up to it.
    intro hle
    have hbottom : Cut.lt s.cmp .bottom m.lower := by
      have hupper : Cut.lt s.cmp .bottom r.upper :=
        (Cut.bottom_lt_iff r.upper).mpr (Interval.upper_ne_bottom_of_isValid hvalid)
      grind
    obtain ⟨g, hg, hupper⟩ := exists_gap_before hs hm hbottom
    have hgne := (normal_gaps hs).nonempty g hg
    unfold Interval.Spans at hspan
    refine ⟨g, hg, (Interval.encloses_iff _ _).mpr ⟨?_, ?_⟩⟩
    · rw [hupper] at hgne
      grind
    · rw [hupper]
      exact hle

end IntervalSet

namespace View

/-! ### Views from outside -/

/-- What the outside of a set answers, against the list of the gaps. -/
structure GapLaws (cmp : α → α → Ordering) (w : View α) : Prop where
  nonempty : ∀ g ∈ w.intervals, g.isEmpty cmp = false
  increasing : w.intervals.Pairwise fun a b => Cut.lt cmp a.lower b.lower
  disconnected : w.intervals.Pairwise fun a b => a.isConnected cmp b = false
  count_eq : w.count = w.intervals.length
  isEmpty_iff : w.isEmpty ↔ w.intervals = []
  contains_iff : ∀ v, w.contains v ↔ ∃ g ∈ w.intervals, g.contains cmp v
  /-- The gap that is found for a value contains it, and no other one does. -/
  intervalOf?_eq_some_iff : ∀ v g, w.intervalOf? v = some g ↔ g ∈ w.intervals ∧ g.contains cmp v
  /-- From the start of the first gap to the end of the last one. -/
  span?_eq : w.span? = IntervalSet.bounds? w.intervals
  span?_eq_none_iff : w.span? = none ↔ w.intervals = []
  intersects_iff : ∀ r : Range α, r.cmp = cmp → r.isValid → r.isEmpty = false →
    (w.intersects (some r) ↔
      ∃ g ∈ w.intervals, ∃ i, g.meet? cmp r.toInterval = some i ∧ i.isEmpty cmp = false)
  /-- The other view may be one of a set or of its outside, or be absent. -/
  enclosesAll_iff : ∀ t : Option (View α), (∀ o, t = some o → o.Reachable cmp) →
    (w.enclosesAll t ↔ ∀ o, t = some o → ∀ m ∈ o.intervals, ∃ g ∈ w.intervals, g.encloses cmp m)

variable [Std.TransCmp cmp] {w : View α}

/-- The outside encloses the intervals of another view one by one; none of them is empty. -/
theorem Sound.enclosesAll_iff (hw : w.Sound cmp) (hside : w.side = .outside) {o : View α}
    (ho : o.Sound cmp) :
    w.enclosesAll (some o) ↔ ∀ m ∈ o.intervals, ∃ g ∈ w.intervals, g.encloses cmp m := by
  obtain ⟨s, side⟩ := w
  obtain rfl : side = .outside := hside
  obtain ⟨rfl, hs⟩ := hw
  show (o.intervals.map fun i => (⟨i, o.cmp⟩ : Range α)).all
    (fun r => s.gapEncloses (some r)) = true ↔ _
  rw [List.all_map, List.all_eq_true]
  refine forall₂_congr fun m hm => ?_
  have hlt := ho.intervals.nonempty m hm
  have hvalid : (⟨m, o.cmp⟩ : Range α).isValid := by
    show m.isValid o.base.cmp
    rw [ho.order]
    exact Interval.isValid_of_lt hlt
  exact IntervalSet.gapEncloses_iff_of_lt hs hvalid hlt

/-- **The outside of a set answers as a scan of the gaps would.**  Take any set that requests in one
    order can make, and its outside.  The gaps are not empty, they are in strict order, and no two
    of them are connected.  Their number is the one that the outside gives, and it is empty exactly
    when there are none.  It contains the values that a gap contains, and the gap that it finds for
    a value is the only one that contains the value.  Its span goes from the start of the first gap
    to the end of the last one, and it has none exactly when there are no gaps.  It intersects a
    range that is not empty exactly when a gap has a non-empty part in common with it, and it
    encloses all intervals of another view exactly when each of them is enclosed by a gap. -/
theorem gapLaws_of_reachable (hw : w.Reachable cmp) (hside : w.side = .inside) :
    GapLaws cmp w.complement := by
  have hsound := hw.sound.complement
  have hgaps := hsound.intervals
  have hall := fun (o : View α) (ho : o.Reachable cmp) => hsound.enclosesAll_iff
    (congrArg Side.flip hside) ho.sound
  obtain ⟨s, side⟩ := w
  obtain rfl : side = .inside := hside
  obtain ⟨rfl, hs⟩ := hw.sound
  have hspan : s.gapSpan? = IntervalSet.bounds? s.gaps := IntervalSet.gapSpan?_eq_bounds? hs
  refine ⟨fun g hg => ?_, hgaps.increasing, ?_, IntervalSet.gapCount_eq (s := s) hs,
    IntervalSet.isFull_iff (s := s) hs, fun v => ?_, IntervalSet.gapOf?_eq_some_iff (s := s) hs,
    hspan, ?_, fun r hr hvalid hempty => ?_, fun t ht => ?_⟩
  · exact (Interval.isEmpty_eq_false_iff g).mpr (hgaps.nonempty g hg)
  · refine hgaps.apart.imp fun {a b} hlt => ?_
    have hle : Cut.le s.cmp b.lower a.upper = false := by grind
    rw [Interval.isConnected, hle, Bool.and_false]
  · rw [hsound.contains_iff]
    simp only [Interval.contains_iff_spans]
    exact Iff.rfl
  · show s.gapSpan? = none ↔ s.gaps = []
    rw [hspan, IntervalSet.bounds?_eq_none_iff]
  · -- The outside asks whether the set does not enclose the range.
    have hlt := Range.lt_of_isEmpty_eq_false hr hempty
    show (r.isValid && !r.isEmpty && !(r.isValid && s.enclosesInterval r.toInterval)) = true ↔ _
    rw [hvalid, hempty, Bool.not_false, Bool.true_and, Bool.true_and, Bool.true_and,
      Bool.not_eq_true', ← Bool.not_eq_true, IntervalSet.not_enclosesInterval_iff hs hlt]
    simp only [Interval.overlaps_iff_meet?]
    exact Iff.rfl
  · cases t with
    | none => simp [enclosesAll]
    | some o => simpa using hall o (ht o rfl)

/-- A set without an upper end has one gap less than it has ends of members. -/
theorem sampleView_gapLaws :
    (sampleView ⟨2, .inside⟩).Reachable compare ∧ (sampleView ⟨2, .inside⟩).side = .inside ∧
      GapLaws compare (sampleView ⟨2, .inside⟩).complement ∧
      (sampleView ⟨2, .inside⟩).complement.intervals =
        [⟨.bottom, .below 2⟩, ⟨.above 2, .above 9⟩] :=
  have h := reachable_sampleView (h := ⟨2, .inside⟩) (by decide)
  ⟨h, rfl, gapLaws_of_reachable h rfl, by decide⟩

/-- A copy of a view has the intervals of the view. -/
theorem Sound.intervals_clone (hw : w.Sound cmp) : w.clone.intervals = w.intervals := by
  show w.copy.members = w.intervals
  rw [hw.copy_eq]

/-- **The outside of a set and a copy of it enclose the same ranges, unless a member hides the
    gap.**  Take any set that requests in one order can make, and any valid range in this order.  A
    copy of the outside encloses the range exactly when a gap does.  The outside itself does so
    when, besides, no member covers the start of the range.  So the two differ exactly where a
    member covers the start of the range and begins at its end or later; such a range is empty, and
    for all others the outside encloses what a gap encloses. -/
theorem encloses_complement_of_reachable (hw : w.Reachable cmp) (hside : w.side = .inside)
    {r : Range α} (hr : r.cmp = cmp) (hvalid : r.isValid) :
    (w.complement.clone.encloses (some r) ↔
      ∃ g ∈ w.complement.intervals, g.encloses cmp r.toInterval) ∧
      (w.complement.encloses (some r) ↔
        (∃ g ∈ w.complement.intervals, g.encloses cmp r.toInterval) ∧
          ∀ m ∈ w.intervals, ¬ m.Spans cmp r.lower) ∧
      (w.complement.encloses (some r) = w.complement.clone.encloses (some r) ↔
        ∀ m ∈ w.intervals, ¬ (Cut.le cmp r.upper m.lower ∧ m.Spans cmp r.lower)) ∧
      (r.isEmpty = false →
        (w.complement.encloses (some r) ↔
          ∃ g ∈ w.complement.intervals, g.encloses cmp r.toInterval)) := by
  have hsound := hw.sound.complement
  have hclone := hsound.clone.encloses_iff rfl hvalid
  rw [hsound.intervals_clone] at hclone
  obtain ⟨s, side⟩ := w
  obtain rfl : side = .inside := hside
  obtain ⟨rfl, hs⟩ := hw.sound
  have hview : s.gapEncloses (some r) ↔ (∃ g ∈ s.gaps, g.encloses s.cmp r.toInterval) ∧
      ∀ m ∈ s.members, ¬ m.Spans s.cmp r.lower := by
    rw [IntervalSet.gapEncloses_iff hs hvalid]
    simp only [IntervalSet.Covers, not_exists, not_and]
  refine ⟨hclone, hview, ?_, fun hempty => ?_⟩
  · -- They differ where a gap encloses the range and a member covers its start.
    rw [Bool.eq_iff_iff, hclone]
    show (s.gapEncloses (some r) ↔ ∃ g ∈ s.gaps, _) ↔ ∀ m ∈ s.members, _
    rw [hview, and_iff_left_iff_imp]
    constructor
    · rintro h m hm ⟨hle, hspan⟩
      exact h ((IntervalSet.exists_gap_encloses_iff hs hvalid hm hspan).mpr hle) m hm hspan
    · intro h hgap m hm hspan
      exact h m hm ⟨(IntervalSet.exists_gap_encloses_iff hs hvalid hm hspan).mp hgap, hspan⟩
  · exact IntervalSet.gapEncloses_iff_of_lt hs hvalid (Range.lt_of_isEmpty_eq_false hr hempty)

/-- An empty range at the start of a gap: the outside and its copy agree. -/
theorem sampleView_encloses_complement :
    (sampleView ⟨0, .inside⟩).Reachable compare ∧ (sampleView ⟨0, .inside⟩).side = .inside ∧
      (⟨.closedOpen 3 3, compare⟩ : Range Int).isValid ∧
      (sampleView ⟨0, .inside⟩).complement.encloses (some ⟨.closedOpen 3 3, compare⟩) =
        (sampleView ⟨0, .inside⟩).complement.clone.encloses (some ⟨.closedOpen 3 3, compare⟩) :=
  have h := reachable_sampleView (h := ⟨0, .inside⟩) (by decide)
  have hfree : ∀ m ∈ (sampleView ⟨0, .inside⟩).intervals,
      ¬ (Cut.le compare (.below 3) m.lower ∧ m.Spans compare (.below 3)) := by
    unfold Interval.Spans
    decide
  ⟨h, rfl, by decide, (encloses_complement_of_reachable h rfl rfl (by decide)).2.2.1.mpr hfree⟩

/-- The empty range at the start of a member is within the gap before it, which the outside does not
    look at; a copy of the outside finds it. -/
theorem sampleView_gap_overlooked :
    (sampleView ⟨0, .inside⟩).Reachable compare ∧ (sampleView ⟨0, .inside⟩).side = .inside ∧
      (⟨.closedOpen 7 7, compare⟩ : Range Int).isValid ∧
      (∃ g ∈ (sampleView ⟨0, .inside⟩).complement.intervals, g.encloses compare (.closedOpen 7 7)) ∧
      (sampleView ⟨0, .inside⟩).complement.encloses (some ⟨.closedOpen 7 7, compare⟩) = false ∧
      (sampleView ⟨0, .inside⟩).complement.clone.encloses (some ⟨.closedOpen 7 7, compare⟩) =
        true :=
  ⟨reachable_sampleView (by decide), rfl, by decide, by decide, by decide, by decide⟩

end View

end Allotment
