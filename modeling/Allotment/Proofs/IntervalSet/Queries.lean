import Allotment.Proofs.IntervalSet.Algebra

namespace Allotment

/-!
# Queries by neighbours

A query of a set looks up one or two members next to a cut and decides by them alone.  What it
answers is what a scan of all members would tell, since a normal list leaves a gap between the
members that the query saw and those that it did not see.

* `Interval.IsLeastAround` — the least interval that encloses each of a list;
* `IntervalSet.memberOf?_eq_some_iff` — the member that contains a value;
* `IntervalSet.enclosesInterval_iff` — the member at or before the start of an interval encloses it
  if any member does;
* `IntervalSet.bounds?`, `IntervalSet.Normal.isLeastAround_bounds?` — from the start of the first
  member to the end of the last one;
* `View.MemberLaws`, `View.memberLaws_of_reachable` — all queries of a set against scans of its
  members.
-/

universe u

variable {α : Type u} {cmp : α → α → Ordering}

namespace Interval

/-- The least interval that encloses each interval of a list. -/
def IsLeastAround (cmp : α → α → Ordering) (i : Interval α) (is : List (Interval α)) : Prop :=
  (∀ m ∈ is, i.encloses cmp m) ∧ ∀ x : Interval α, (∀ m ∈ is, x.encloses cmp m) → x.encloses cmp i

/-- A valid interval has a place to start. -/
theorem lower_ne_top_of_isValid {r : Interval α} (h : r.isValid cmp) : r.lower ≠ .top := by
  intro htop
  simp [isValid, htop, Cut.isTop] at h

/-- A valid interval has a place to end. -/
theorem upper_ne_bottom_of_isValid {r : Interval α} (h : r.isValid cmp) : r.upper ≠ .bottom := by
  intro hbottom
  simp [isValid, hbottom, Cut.isBottom] at h

/-- Overlapping is having a common part that is not empty. -/
theorem overlaps_iff_meet? (r s : Interval α) :
    r.overlaps cmp s ↔ ∃ m, r.meet? cmp s = some m ∧ m.isEmpty cmp = false := by
  unfold overlaps
  cases r.meet? cmp s <;> simp

variable [Std.TransCmp cmp]

/-- Two intervals overlap when there is a cut that both span: the later one of their starts. -/
theorem overlaps_iff_spans (r s : Interval α) :
    r.overlaps cmp s ↔ ∃ c, r.Spans cmp c ∧ s.Spans cmp c := by
  rw [overlaps_iff]
  constructor
  · rintro ⟨hr, hs, hrs, hsr⟩
    by_cases hle : Cut.le cmp r.lower s.lower
    · exact ⟨s.lower, ⟨hle, hsr⟩, Cut.le_refl _, hs⟩
    · exact ⟨r.lower, ⟨Cut.le_refl _, hr⟩, by grind, hrs⟩
  · rintro ⟨c, hr, hs⟩
    unfold Spans at hr hs
    grind

end Interval

namespace IntervalSet

variable {s : IntervalSet α} {ms : List (Interval α)} {m n : Interval α}

/-! ### One member -/

/-- No two members of a normal list span a common cut. -/
theorem Normal.eq_of_spans [Std.TransCmp cmp] (h : Normal cmp ms) (hm : m ∈ ms) (hn : n ∈ ms)
    {c : Cut α} (hmc : m.Spans cmp c) (hnc : n.Spans cmp c) : m = n := by
  unfold Interval.Spans at hmc hnc
  rcases h.eq_or_apart hm hn with heq | hapart | hapart
  · exact heq
  · grind
  · grind

section

variable [Std.TransCmp s.cmp]

/-- The member that is looked up for a value is the one that contains it, if there is one. -/
theorem memberOf?_eq_some_iff (hs : Normal s.cmp s.members) (v : α) (m : Interval α) :
    s.memberOf? v = some m ↔ m ∈ s.members ∧ m.contains s.cmp v := by
  unfold memberOf?
  rw [Option.filter_eq_some_iff]
  constructor
  · rintro ⟨hfloor, hv⟩
    exact ⟨(floor?_eq_some hs hfloor).1, hv⟩
  · rintro ⟨hm, hv⟩
    obtain ⟨hlower, hupper⟩ := (Interval.contains_iff_spans m v).mp hv
    exact ⟨floor?_of_reaches hs hm hlower (by grind), hv⟩

/-- The member at or before the start of an interval encloses the interval if any member does, also
    where the cuts of the interval are crossed: an earlier member ends before this one starts, and
    so does all that it encloses. -/
theorem enclosesInterval_iff (hs : Normal s.cmp s.members) (r : Interval α) :
    s.enclosesInterval r ↔ ∃ m ∈ s.members, m.encloses s.cmp r := by
  unfold enclosesInterval
  constructor
  · intro h
    cases hfloor : s.floor? r.lower with
    | none => simp [hfloor] at h
    | some f => exact ⟨f, (floor?_eq_some hs hfloor).1, by simpa [hfloor] using h⟩
  · rintro ⟨m, hm, henc⟩
    have henc' := (Interval.encloses_iff m r).mp henc
    cases hfloor : s.floor? r.lower with
    | none =>
      have hnone := floor?_eq_none hfloor m hm
      rw [henc'.1] at hnone
      cases hnone
    | some f =>
      obtain ⟨hf, hlower, hlast⟩ := floor?_eq_some hs hfloor
      rcases hlast m hm henc'.1 with rfl | hlt
      · exact henc
      · -- A later member does not reach back over the last one that starts up to `r`.
        have hne := hs.nonempty f hf
        refine (Interval.encloses_iff f r).mpr ⟨hlower, ?_⟩
        grind

end

/-! ### The first and the last member -/

/-- From the start of the first interval to the end of the last one. -/
def bounds? (is : List (Interval α)) : Option (Interval α) :=
  match is.head?, is.getLast? with
  | some first, some last => some ⟨first.lower, last.upper⟩
  | _, _ => none

/-- The first interval gives the one end, the last one the other. -/
theorem bounds?_cons (i : Interval α) (is : List (Interval α)) :
    bounds? (i :: is) = some ⟨i.lower, (is.getLast?.getD i).upper⟩ := by
  simp [bounds?, List.getLast?_cons]

/-- Only the empty list has no bounds. -/
theorem bounds?_eq_none_iff (is : List (Interval α)) : bounds? is = none ↔ is = [] := by
  cases is with
  | nil => simp [bounds?]
  | cons i is => simp [bounds?_cons]

variable [Std.TransCmp cmp]

/-- The members of a normal list end at or before the end of the last one. -/
theorem Normal.le_getLast (h : Normal cmp ms) (hlast : ms.getLast? = some n) (hm : m ∈ ms) :
    Cut.le cmp m.upper n.upper := by
  obtain ⟨ns, rfl⟩ := List.getLast?_eq_some_iff.mp hlast
  rcases List.mem_append.mp hm with hm | hm
  · have hapart := (List.pairwise_append.mp h.apart).2.2 m hm n (List.mem_singleton_self n)
    have hne := h.nonempty n (by simp)
    grind
  · rw [List.mem_singleton.mp hm]
    exact Cut.le_refl _

/-- The bounds of a normal list enclose all members, and nothing less does. -/
theorem Normal.isLeastAround_bounds? (h : Normal cmp ms) {i : Interval α}
    (hi : bounds? ms = some i) : i.IsLeastAround cmp ms := by
  cases ms with
  | nil => cases hi
  | cons m ms =>
    have hlast : (m :: ms).getLast? = some (ms.getLast?.getD m) := List.getLast?_cons
    rw [bounds?_cons, Option.some_inj] at hi
    obtain rfl := hi
    refine ⟨fun n hn => (Interval.encloses_iff _ n).mpr ?_,
      fun x hx => (Interval.encloses_iff x _).mpr ?_⟩
    · have hupper : Cut.le cmp n.upper (ms.getLast?.getD m).upper := h.le_getLast hlast hn
      exact ⟨h.le_of_covers ⟨n, hn, Cut.le_refl _, h.nonempty n hn⟩, hupper⟩
    · have hfirst := (Interval.encloses_iff x m).mp (hx m (List.mem_cons_self ..))
      have hend := (Interval.encloses_iff x _).mp (hx _ (List.mem_of_getLast? hlast))
      exact ⟨hfirst.1, hend.2⟩

/-- The least interval around the first and the last member goes from the start of the one to the
    end of the other. -/
theorem span?_eq_bounds? [Std.TransCmp s.cmp] (hs : Normal s.cmp s.members) :
    s.span? = bounds? s.members := by
  unfold span? bounds?
  cases hfirst : s.members.head? with
  | none => rfl
  | some first =>
    cases hlast : s.members.getLast? with
    | none => rfl
    | some last =>
      have hf : first ∈ s.members := List.mem_of_head? hfirst
      have hl : last ∈ s.members := List.mem_of_getLast? hlast
      have hfne := hs.nonempty first hf
      have hlne := hs.nonempty last hl
      show some (first.hull s.cmp last) = some ⟨first.lower, last.upper⟩
      unfold Interval.hull
      rcases hs.eq_or_apart hf hl with rfl | hapart | hapart
      · simp [Cut.min, Cut.max]
      · have hlower : Cut.le s.cmp first.lower last.lower := by grind
        have hmin : Cut.min s.cmp first.lower last.lower = first.lower := if_pos hlower
        have hmax : Cut.max s.cmp first.upper last.upper = last.upper := by
          rw [Cut.max_eq, if_neg (by grind)]
        rw [hmin, hmax]
      · -- No member ends before the first one starts.
        have hupper := hs.le_getLast hlast hf
        grind

end IntervalSet

namespace View

/-- What a set answers, against a scan of all its members. -/
structure MemberLaws (cmp : α → α → Ordering) (w : View α) : Prop where
  /-- The member that is found for a value contains it, and no other one does. -/
  intervalOf?_eq_some_iff : ∀ v m, w.intervalOf? v = some m ↔ m ∈ w.intervals ∧ m.contains cmp v
  intervalOf?_eq_none_iff : ∀ v, w.intervalOf? v = none ↔
    ∀ m ∈ w.intervals, m.contains cmp v = false
  /-- The range may be empty, and its cuts may be crossed. -/
  encloses_iff : ∀ r : Range α, r.cmp = cmp → r.isValid →
    (w.encloses (some r) ↔ ∃ m ∈ w.intervals, m.encloses cmp r.toInterval)
  intersects_iff : ∀ r : Range α, r.cmp = cmp → r.isValid → r.isEmpty = false →
    (w.intersects (some r) ↔
      ∃ m ∈ w.intervals, ∃ i, m.meet? cmp r.toInterval = some i ∧ i.isEmpty cmp = false)
  span?_isLeastAround : ∀ i, w.span? = some i → i.IsLeastAround cmp w.intervals
  span?_eq_none_iff : w.span? = none ↔ w.intervals = []

variable [Std.TransCmp cmp] {w : View α}

/-- A set encloses a valid range when one of its members does. -/
theorem Sound.encloses_iff (hw : w.Sound cmp) (hside : w.side = .inside) {r : Range α}
    (hvalid : r.isValid) :
    w.encloses (some r) ↔ ∃ m ∈ w.intervals, m.encloses cmp r.toInterval := by
  obtain ⟨s, side⟩ := w
  obtain rfl : side = .inside := hside
  obtain ⟨rfl, hs⟩ := hw
  show (r.isValid && s.enclosesInterval r.toInterval) = true ↔ _
  rw [hvalid, Bool.true_and]
  exact IntervalSet.enclosesInterval_iff hs r.toInterval

/-- **A set answers as a scan of its members would.**  Take any set that requests in one order can
    make.  The member that it finds for a value is the only one that contains the value, and it
    finds none exactly when there is none.  It encloses a valid range, be it empty or not, exactly
    when one of its members does, and it intersects one that is not empty exactly when one of its
    members has a non-empty part in common with it.  Its span is the least interval that encloses
    all members, and it has none exactly when it has no members. -/
theorem memberLaws_of_reachable (hw : w.Reachable cmp) (hside : w.side = .inside) :
    MemberLaws cmp w := by
  have hencloses := fun r (_ : r.cmp = cmp) => hw.sound.encloses_iff hside (r := r)
  obtain ⟨s, side⟩ := w
  obtain rfl : side = .inside := hside
  obtain ⟨rfl, hs⟩ := hw.sound
  have hmember := IntervalSet.memberOf?_eq_some_iff hs
  have hspan : s.span? = IntervalSet.bounds? s.members := IntervalSet.span?_eq_bounds? hs
  refine ⟨hmember, fun v => ?_, hencloses, fun r _ hvalid hempty => ?_, fun i hi => ?_, ?_⟩
  · show s.memberOf? v = none ↔ ∀ m ∈ s.members, m.contains s.cmp v = false
    rw [Option.eq_none_iff_forall_ne_some]
    simp only [ne_eq, hmember, not_and, Bool.not_eq_true]
  · -- Of a range that is valid and not empty the members alone decide.
    show (r.isValid && !r.isEmpty && s.overlapsInterval r.toInterval) = true ↔ _
    rw [hvalid, hempty, Bool.not_false, Bool.true_and, Bool.true_and,
      IntervalSet.overlapsInterval_iff hs]
    simp only [Interval.overlaps_iff_meet?]
    exact Iff.rfl
  · exact hs.isLeastAround_bounds? (hspan.symm.trans hi)
  · show s.span? = none ↔ s.members = []
    rw [hspan, IntervalSet.bounds?_eq_none_iff]

/-- A crossed range is enclosed where it lies between the ends of a member, and is not enclosed
    elsewhere. -/
theorem sampleView_memberLaws :
    (sampleView ⟨2, .inside⟩).Reachable compare ∧ (sampleView ⟨2, .inside⟩).side = .inside ∧
      MemberLaws compare (sampleView ⟨2, .inside⟩) ∧
      (sampleView ⟨2, .inside⟩).encloses (some ⟨⟨.above 2, .below 2⟩, compare⟩) ∧
      (sampleView ⟨2, .inside⟩).encloses (some ⟨⟨.above 3, .below 3⟩, compare⟩) = false :=
  have h := reachable_sampleView (h := ⟨2, .inside⟩) (by decide)
  ⟨h, rfl, memberLaws_of_reachable h rfl, by decide, by decide⟩

end View

end Allotment
