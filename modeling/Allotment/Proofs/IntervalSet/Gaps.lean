import Allotment.IntervalSet.View
import Allotment.Proofs.IntervalSet.NormalForm

namespace Allotment.IntervalSet

/-!
# The gaps of a normal list of members

The gaps of a normal list are a normal list themselves, and they cover exactly the cuts that the
members leave out.  So a view has its intervals in normal form from either side.

* `normal_gapsFrom`, `covers_gapsFrom` — the gaps from a cut on;
* `ofMembers_eq` — a list in order is kept as it is;
* `View.normal_intervals`, `View.contains_iff_covers` — the intervals of a view, and what they
  cover.
-/

universe u

variable {α : Type u} {cmp : α → α → Ordering}

/-! ### The gaps from a cut on -/

section

variable [Std.TransCmp cmp]

/-- An interval is kept unless it is empty. -/
theorem mem_keepNonempty (r x : Interval α) :
    x ∈ keepNonempty cmp r ↔ x = r ∧ Cut.lt cmp r.lower r.upper := by
  rw [← Interval.isEmpty_eq_false_iff]
  unfold keepNonempty
  cases r.isEmpty cmp <;> simp

/-- An interval that is left out because it is empty spans nothing. -/
theorem covers_keepNonempty (r : Interval α) (c : Cut α) :
    Covers cmp (keepNonempty cmp r) c ↔ r.Spans cmp c := by
  simp only [Covers, mem_keepNonempty]
  constructor
  · rintro ⟨x, ⟨rfl, -⟩, hspan⟩
    exact hspan
  · intro hspan
    refine ⟨r, ⟨rfl, ?_⟩, hspan⟩
    unfold Interval.Spans at hspan
    grind

/-- The later members are in normal form too, and start at or after the end of the first. -/
theorem Normal.of_cons {m : Interval α} {ms : List (Interval α)} (h : Normal cmp (m :: ms)) :
    Normal cmp ms ∧ ∀ x ∈ ms, Cut.le cmp m.upper x.lower := by
  refine ⟨h.sublist (List.sublist_cons_self m ms), fun x hx => ?_⟩
  have hlt := (List.pairwise_cons.mp h.apart).1 x hx
  grind

/-- Every gap from a cut on starts at or after the cut, and is not empty. -/
theorem le_lower_of_mem_gapsFrom {ms : List (Interval α)} (hms : Normal cmp ms) {c : Cut α}
    (hc : ∀ m ∈ ms, Cut.le cmp c m.lower) {g : Interval α} (hg : g ∈ gapsFrom cmp c ms) :
    Cut.le cmp c g.lower ∧ Cut.lt cmp g.lower g.upper := by
  induction ms generalizing c with
  | nil =>
    obtain ⟨rfl, hlt⟩ := (mem_keepNonempty _ g).mp hg
    exact ⟨Cut.le_refl _, hlt⟩
  | cons m ms ih =>
    have hm := hms.nonempty m (List.mem_cons_self ..)
    have hcm := hc m (List.mem_cons_self ..)
    rcases List.mem_append.mp hg with hg | hg
    · obtain ⟨rfl, hlt⟩ := (mem_keepNonempty _ g).mp hg
      exact ⟨Cut.le_refl _, hlt⟩
    · obtain ⟨htail, hstart⟩ := hms.of_cons
      have hrest := ih htail hstart hg
      grind

/-- The gaps of a normal list are in normal form: a member lies between each two of them. -/
theorem normal_gapsFrom {ms : List (Interval α)} (hms : Normal cmp ms) {c : Cut α}
    (hc : ∀ m ∈ ms, Cut.le cmp c m.lower) : Normal cmp (gapsFrom cmp c ms) := by
  refine ⟨fun g hg => (le_lower_of_mem_gapsFrom hms hc hg).2, ?_⟩
  induction ms generalizing c with
  | nil =>
    simp only [gapsFrom, keepNonempty]
    split <;> simp
  | cons m ms ih =>
    obtain ⟨htail, hrest⟩ := hms.of_cons
    have hm := hms.nonempty m (List.mem_cons_self ..)
    refine List.pairwise_append.mpr ⟨?_, ih htail hrest, ?_⟩
    · unfold keepNonempty
      split <;> simp
    · -- Between two gaps there is a member, which is not empty.
      intro a ha b hb
      obtain ⟨rfl, -⟩ := (mem_keepNonempty _ a).mp ha
      have hb' := (le_lower_of_mem_gapsFrom htail hrest hb).1
      grind

/-- The gaps cover what the members do not. -/
theorem covers_gapsFrom {ms : List (Interval α)} (hms : Normal cmp ms) {l : Cut α}
    (hl : ∀ m ∈ ms, Cut.le cmp l m.lower) (c : Cut α) :
    Covers cmp (gapsFrom cmp l ms) c ↔ Cut.le cmp l c ∧ Cut.lt cmp c .top ∧ ¬ Covers cmp ms c := by
  induction ms generalizing l with
  | nil =>
    simp [gapsFrom, covers_keepNonempty, not_covers_nil, Interval.Spans]
  | cons m ms ih =>
    obtain ⟨htail, hstart⟩ := hms.of_cons
    have hm := hms.nonempty m (List.mem_cons_self ..)
    have hlm := hl m (List.mem_cons_self ..)
    have hrest := ih htail hstart
    rw [gapsFrom, covers_append, covers_keepNonempty, hrest, covers_cons]
    -- A cut before `m` is in no later member, as these start after `m` ends.
    have hbefore : Cut.lt cmp c m.lower → ¬ Covers cmp ms c := by
      rintro hlt ⟨x, hx, hspan⟩
      have hx' := hstart x hx
      unfold Interval.Spans at hspan
      grind
    have hmtop : Cut.le cmp m.lower .top := Cut.le_top _
    unfold Interval.Spans
    grind

end

/-! ### The gaps as a set -/

/-- A list in order is kept as it is. -/
theorem ofMembers_eq {rs : List (Interval α)} (h : Increasing cmp rs) [Std.TransCmp cmp] :
    ofMembers cmp rs = ⟨cmp, rs⟩ := by
  have hput : ∀ (ms : List (Interval α)) (r : Interval α),
      (∀ m ∈ ms, Cut.lt cmp m.lower r.lower) → put cmp r ms = ms ++ [r] := by
    intro ms r hms
    induction ms with
    | nil => rfl
    | cons m ms ih =>
      have hgt := hms m (List.mem_cons_self ..)
      rw [← Cut.compare_eq_gt_iff] at hgt
      simp only [put, hgt, List.cons_append]
      rw [ih fun x hx => hms x (List.mem_cons_of_mem _ hx)]
  -- What has been stored so far comes before all that is still to be stored.
  have hfold : ∀ (ms : List (Interval α)), Increasing cmp (ms ++ rs) →
      rs.foldl (fun ms r => put cmp r ms) ms = ms ++ rs := by
    clear h
    induction rs with
    | nil => simp
    | cons r rs ih =>
      intro ms hms
      rw [List.foldl_cons, hput ms r, ih]
      · simp
      · simpa using hms
      · intro m hm
        exact (List.pairwise_append.mp hms).2.2 m hm r (List.mem_cons_self ..)
  unfold ofMembers
  rw [hfold [] h, List.nil_append]

variable {s : IntervalSet α} [Std.TransCmp s.cmp]

/-- The gaps of a set in normal form are in normal form. -/
theorem normal_gaps (hs : Normal s.cmp s.members) : Normal s.cmp s.gaps :=
  normal_gapsFrom hs fun m _ => Cut.bottom_le m.lower

/-- The outside as a set of its own has the gaps for members. -/
theorem complement_eq (hs : Normal s.cmp s.members) : s.complement = ⟨s.cmp, s.gaps⟩ :=
  ofMembers_eq (normal_gaps hs).increasing

/-- The gaps cover a value exactly when the members do not. -/
theorem covers_gaps (hs : Normal s.cmp s.members) (v : α) :
    Covers s.cmp s.gaps (.below v) ↔ ¬ Covers s.cmp s.members (.below v) := by
  unfold gaps
  rw [covers_gapsFrom hs fun m _ => Cut.bottom_le m.lower]
  have hlt : Cut.lt s.cmp (.below v) .top := (Cut.lt_top_iff _).mpr (by simp)
  simp [hlt]

end Allotment.IntervalSet

namespace Allotment.View

universe u

variable {α : Type u} {w : View α} [Std.TransCmp w.base.cmp]

/-- The intervals of a view are in normal form, from either side. -/
theorem normal_intervals (hw : IntervalSet.Normal w.base.cmp w.base.members) :
    IntervalSet.Normal w.base.cmp w.intervals := by
  obtain ⟨base, side⟩ := w
  cases side with
  | inside => exact hw
  | outside => exact IntervalSet.normal_gaps hw

/-- A view contains the values that its intervals cover. -/
theorem contains_iff_covers (hw : IntervalSet.Normal w.base.cmp w.base.members) (v : α) :
    w.contains v ↔ IntervalSet.Covers w.base.cmp w.intervals (.below v) := by
  obtain ⟨base, side⟩ := w
  cases side with
  | inside => exact IntervalSet.contains_iff_covers hw v
  | outside =>
    show (!base.contains v) = true ↔ IntervalSet.Covers base.cmp base.gaps (.below v)
    rw [IntervalSet.covers_gaps hw, ← IntervalSet.contains_iff_covers hw]
    simp

/-- A copy of a view has the intervals of the view as its members. -/
theorem copy_eq (hw : IntervalSet.Normal w.base.cmp w.base.members) :
    w.copy = ⟨w.base.cmp, w.intervals⟩ := by
  obtain ⟨base, side⟩ := w
  cases side with
  | inside => rfl
  | outside => exact IntervalSet.complement_eq hw

/-- A copy of a view contains what the view contains. -/
theorem contains_copy (hw : IntervalSet.Normal w.base.cmp w.base.members) (v : α) :
    w.copy.contains v = w.contains v := by
  rw [Bool.eq_iff_iff, contains_iff_covers hw, copy_eq hw]
  exact IntervalSet.contains_iff_covers (s := ⟨w.base.cmp, w.intervals⟩) (normal_intervals hw) v

end Allotment.View
