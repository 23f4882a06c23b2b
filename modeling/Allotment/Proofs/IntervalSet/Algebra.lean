import Allotment.Proofs.IntervalSet.Region
import Allotment.Proofs.IntervalSet.Store

namespace Allotment.View

/-!
# The algebra of views

Unions, differences and common parts are computed by copying one view and editing the copy with the
intervals of the other.  On regions these are the operations on sets, and equal views are those with
equal regions; so the laws of sets hold of views.

* `Reachable` — the views that requests to a store can make;
* `union`, `meet`, `difference`, `clone` — the operations, with a view as the result;
* `region_union`, `region_meet`, `region_difference` — what they cover;
* `BooleanLaws`, `booleanLaws_of_reachable` — the laws of a Boolean algebra.
-/

universe u

variable {α : Type u} {cmp : α → α → Ordering}

/-- A view that some run of requests in the order `cmp` makes. -/
def Reachable (cmp : α → α → Ordering) (w : View α) : Prop :=
  ∃ (qs : List (Store.Request α)) (h : Handle),
    (∀ q ∈ qs, q.ReadIn cmp) ∧ ((Store.empty : Store α).run qs).view? h = some w

/-- The values of either view. -/
def union (a b : View α) : View α :=
  (Cell.union a b).1.view .inside

/-- The values of both views. -/
def meet (a b : View α) : View α :=
  (Cell.meet a b).1.view .inside

/-- The values of the first view that are not in the second. -/
def difference (a b : View α) : View α :=
  (Cell.difference a b).1.view .inside

/-- A copy that shares nothing with the view. -/
def clone (w : View α) : View α :=
  (Cell.ofSet w.copy).view .inside

/-- The set that is made from the one range of all values. -/
def whole (cmp : α → α → Ordering) : View α :=
  (Cell.ofRanges cmp [some ⟨.all, cmp⟩]).1.view .inside

variable [Std.TransCmp cmp] {a b c w : View α}

/-- All views that requests make are sound. -/
theorem Reachable.sound (hw : w.Reachable cmp) : w.Sound cmp := by
  obtain ⟨qs, h, hqs, hview⟩ := hw
  obtain ⟨cell, hcell, rfl⟩ := Option.map_eq_some_iff.mp hview
  exact ((Store.sound_run Store.sound_empty hqs).cell hcell).view h.side

/-! ### What the operations cover -/

/-- A new cell with the intervals of a sound view is sound. -/
theorem sound_ofSet_copy (hw : w.Sound cmp) : (Cell.ofSet w.copy).Sound cmp := by
  rw [hw.copy_eq]
  exact ⟨rfl, hw.intervals⟩

/-- A copy of a sound view is sound. -/
theorem Sound.clone (hw : w.Sound cmp) : w.clone.Sound cmp :=
  (sound_ofSet_copy hw).view .inside

/-- A copy covers what is covered by the view that it was made from. -/
theorem region_clone (hw : w.Sound cmp) : w.clone.region cmp = w.region cmp := by
  show IntervalSet.region cmp w.copy.members = _
  rw [hw.copy_eq]
  rfl

/-- An edited copy of a view covers what the edit makes of the region of the view. -/
theorem region_edit_copy (hw : w.Sound cmp) {e : Edit α} (he : e.ReadIn cmp) :
    (((Cell.ofSet w.copy).apply e).1.view .inside).region cmp = e.onRegion cmp (w.region cmp) := by
  rw [← region_clone hw]
  exact Cell.region_apply (sound_ofSet_copy hw) rfl he

/-- A union is sound if its first operand is, for it starts as a copy of that one. -/
theorem Sound.union (ha : a.Sound cmp) (b : View α) : (a.union b).Sound cmp :=
  (Cell.sound_apply (sound_ofSet_copy ha) (e := .addAll (some b.intervals)) trivial).view .inside

/-- An intersection is sound if its first operand is. -/
theorem Sound.meet (ha : a.Sound cmp) (b : View α) : (a.meet b).Sound cmp :=
  (Cell.sound_apply (sound_ofSet_copy ha) (e := .removeAll (some b.complement.intervals))
    trivial).view .inside

/-- A difference is sound if its first operand is. -/
theorem Sound.difference (ha : a.Sound cmp) (b : View α) : (a.difference b).Sound cmp :=
  (Cell.sound_apply (sound_ofSet_copy ha) (e := .removeAll (some b.intervals)) trivial).view .inside

/-- A union covers what one of its operands covers. -/
theorem region_union (ha : a.Sound cmp) (b : View α) :
    (a.union b).region cmp = a.region cmp ∪ b.region cmp :=
  region_edit_copy ha (e := .addAll (some b.intervals)) trivial

/-- A difference covers what its first operand covers and its second one does not. -/
theorem region_difference (ha : a.Sound cmp) (b : View α) :
    (a.difference b).region cmp = a.region cmp \ b.region cmp :=
  region_edit_copy ha (e := .removeAll (some b.intervals)) trivial

/-- The common part is computed by taking the outside of the second view away from the first. -/
theorem region_meet (ha : a.Sound cmp) (hb : b.Sound cmp) :
    (a.meet b).region cmp = a.region cmp ∩ b.region cmp := by
  have hregion : (a.meet b).region cmp = a.region cmp \ b.complement.region cmp :=
    region_edit_copy ha (e := .removeAll (some b.complement.intervals)) trivial
  rw [hregion, region_complement hb, Set.sdiff_eq, compl_compl]

/-- The set of all values is sound. -/
theorem sound_whole : (whole cmp : View α).Sound cmp := by
  refine (Store.sound_ofRanges ?_).view .inside
  intro x hx
  rw [List.mem_singleton, Option.some_inj] at hx
  rw [hx]

/-- The set of all values covers all cuts at which a value can start. -/
theorem region_whole : (whole cmp : View α).region cmp = Set.univ := by
  have hregion : (whole cmp : View α).region cmp =
      IntervalSet.region cmp [] ∪ Interval.region cmp .all := by
    have hsound : (Cell.ofSet (.empty cmp) : Cell α).Sound cmp := ⟨rfl, IntervalSet.normal_nil⟩
    exact Cell.region_apply hsound rfl (e := .add (some ⟨.all, cmp⟩))
      (Range.Optional.readIn_some rfl)
  rw [hregion, Interval.region_all, Set.union_univ]

/-- The intervals of a sound view are valid, so a bulk edit with them refuses nothing. -/
theorem Sound.refusals_addAll (hw : w.Sound cmp) :
    Edit.refusals cmp (.addAll (some w.intervals)) = [] := by
  rw [Edit.refusals, List.map_eq_nil_iff, List.filter_eq_nil_iff]
  intro r hr
  rw [Interval.isValid_of_lt (hw.intervals.nonempty r hr)]
  simp

/-- Nothing is refused when a copy is edited with the intervals of a sound view. -/
theorem refused_edit_copy (ha : a.Sound cmp) (hb : b.Sound cmp) :
    ((Cell.ofSet a.copy).apply (.addAll (some b.intervals))).2 = [] ∧
      ((Cell.ofSet a.copy).apply (.removeAll (some b.intervals))).2 = [] := by
  have horder := (sound_ofSet_copy ha).order
  exact ⟨(Cell.refused_apply horder rfl _).trans hb.refusals_addAll,
    (Cell.refused_apply horder rfl _).trans hb.refusals_addAll⟩

/-! ### The laws -/

/-- The laws of a Boolean algebra for three views, up to equality of views. -/
structure BooleanLaws (cmp : α → α → Ordering) (a b c : View α) : Prop where
  union_comm : (a.union b).equal (some (b.union a))
  meet_comm : (a.meet b).equal (some (b.meet a))
  union_assoc : ((a.union b).union c).equal (some (a.union (b.union c)))
  meet_assoc : ((a.meet b).meet c).equal (some (a.meet (b.meet c)))
  union_self : (a.union a).equal (some a)
  meet_self : (a.meet a).equal (some a)
  union_meet_distrib : (a.union (b.meet c)).equal (some ((a.union b).meet (a.union c)))
  meet_union_distrib : (a.meet (b.union c)).equal (some ((a.meet b).union (a.meet c)))
  union_meet_absorb : (a.union (a.meet b)).equal (some a)
  meet_union_absorb : (a.meet (a.union b)).equal (some a)
  complement_union : (a.union b).complement.equal (some (a.complement.meet b.complement))
  complement_meet : (a.meet b).complement.equal (some (a.complement.union b.complement))
  /-- The outside of a copy of the outside. -/
  complement_clone : a.complement.clone.complement.equal (some a)
  union_complement : (a.union a.complement).equal (some (whole cmp))
  meet_complement : (a.meet a.complement).isEmpty
  difference_eq : (a.difference b).equal (some (a.meet b.complement))
  /-- None of the operations reports an error. -/
  accepted : (Cell.union a b).2 = [] ∧ (Cell.meet a b).2 = [] ∧ (Cell.difference a b).2 = []

/-- The laws of a Boolean algebra, each from the same law about the regions. -/
theorem Sound.booleanLaws (ha : a.Sound cmp) (hb : b.Sound cmp) (hc : c.Sound cmp) :
    BooleanLaws cmp a b c where
  union_comm := by
    rw [equal_iff (ha.union b) (hb.union a), region_union ha, region_union hb, Set.union_comm]
  meet_comm := by
    rw [equal_iff (ha.meet b) (hb.meet a), region_meet ha hb, region_meet hb ha, Set.inter_comm]
  union_assoc := by
    rw [equal_iff ((ha.union b).union c) (ha.union _), region_union (ha.union b), region_union ha,
      region_union ha, region_union hb, Set.union_assoc]
  meet_assoc := by
    rw [equal_iff ((ha.meet b).meet c) (ha.meet _), region_meet (ha.meet b) hc, region_meet ha hb,
      region_meet ha (hb.meet c), region_meet hb hc, Set.inter_assoc]
  union_self := by
    rw [equal_iff (ha.union a) ha, region_union ha, Set.union_self]
  meet_self := by
    rw [equal_iff (ha.meet a) ha, region_meet ha ha, Set.inter_self]
  union_meet_distrib := by
    rw [equal_iff (ha.union _) ((ha.union b).meet _), region_union ha, region_meet hb hc,
      region_meet (ha.union b) (ha.union c), region_union ha, region_union ha,
      Set.union_inter_distrib_left]
  meet_union_distrib := by
    rw [equal_iff (ha.meet _) ((ha.meet b).union _), region_meet ha (hb.union c), region_union hb,
      region_union (ha.meet b), region_meet ha hb, region_meet ha hc, Set.inter_union_distrib_left]
  union_meet_absorb := by
    rw [equal_iff (ha.union _) ha, region_union ha, region_meet ha hb]
    exact sup_inf_self
  meet_union_absorb := by
    rw [equal_iff (ha.meet _) ha, region_meet ha (ha.union b), region_union ha]
    exact inf_sup_self
  complement_union := by
    rw [equal_iff (ha.union b).complement (ha.complement.meet _), region_complement (ha.union b),
      region_union ha, region_meet ha.complement hb.complement, region_complement ha,
      region_complement hb, Set.compl_union]
  complement_meet := by
    rw [equal_iff (ha.meet b).complement (ha.complement.union _), region_complement (ha.meet b),
      region_meet ha hb, region_union ha.complement, region_complement ha, region_complement hb,
      Set.compl_inter]
  complement_clone := by
    rw [equal_iff ha.complement.clone.complement ha, region_complement ha.complement.clone,
      region_clone ha.complement, region_complement ha, compl_compl]
  union_complement := by
    rw [equal_iff (ha.union _) sound_whole, region_union ha, region_complement ha,
      Set.union_compl_self, region_whole]
  meet_complement := by
    have hempty : (a.meet a.complement).region cmp = ∅ := by
      rw [region_meet ha ha.complement, region_complement ha, Set.inter_compl_self]
    -- A set in normal form that covers nothing has no members at all.
    exact List.isEmpty_iff.mpr ((ha.meet _).normal.eq_nil hempty)
  difference_eq := by
    rw [equal_iff (ha.difference b) (ha.meet _), region_difference ha, region_meet ha hb.complement,
      region_complement hb, Set.sdiff_eq]
  accepted :=
    ⟨(refused_edit_copy ha hb).1, (refused_edit_copy ha hb.complement).2,
      (refused_edit_copy ha hb).2⟩

/-- **Views form a Boolean algebra up to equality.**  Take any three views that requests in one
    order can make, of sets or of their outsides.  Unions and common parts are commutative,
    associative and idempotent, they distribute over each other and absorb each other, and the
    outside of one is the other of the outsides.  A view and its outside together are everything and
    have nothing in common, and a difference is the common part with the outside. -/
theorem booleanLaws_of_reachable (ha : a.Reachable cmp) (hb : b.Reachable cmp)
    (hc : c.Reachable cmp) : BooleanLaws cmp a b c :=
  ha.sound.booleanLaws hb.sound hc.sound

/-- Three sets of integers, one of them unbounded. -/
def sampleSets : List (Store.Request Int) :=
  [.make compare [some ⟨.closed 1 3, compare⟩, some ⟨.closedOpen 7 9, compare⟩],
    .make compare [some ⟨⟨.above 3, .below 8⟩, compare⟩],
    .make compare [some ⟨.singleton 2, compare⟩, some ⟨⟨.above 9, .top⟩, compare⟩]]

/-- The view of one of the sample sets. -/
def sampleView (h : Handle) : View Int :=
  (((Store.empty : Store Int).run sampleSets).view? h).getD (whole compare)

/-- The sample views are made by requests, on either side. -/
theorem reachable_sampleView {h : Handle} (hlt : h.cell < 3) :
    (sampleView h).Reachable compare := by
  refine ⟨sampleSets, h, by simp [sampleSets, Store.Request.ReadIn], ?_⟩
  obtain ⟨cell, side⟩ := h
  have hcell : cell = 0 ∨ cell = 1 ∨ cell = 2 := by
    simp only at hlt
    omega
  rcases hcell with rfl | rfl | rfl
  · rfl
  · rfl
  · rfl

/-- A set, the outside of another one and a set without an upper end; the first two have two
    intervals in common. -/
theorem sampleView_booleanLaws :
    (sampleView ⟨0, .inside⟩).Reachable compare ∧ (sampleView ⟨1, .outside⟩).Reachable compare ∧
      (sampleView ⟨2, .inside⟩).Reachable compare ∧
      BooleanLaws compare (sampleView ⟨0, .inside⟩) (sampleView ⟨1, .outside⟩)
        (sampleView ⟨2, .inside⟩) ∧
      ((sampleView ⟨0, .inside⟩).meet (sampleView ⟨1, .outside⟩)).intervals =
      [.closed 1 3, .closedOpen 8 9] :=
  have h₀ := reachable_sampleView (h := ⟨0, .inside⟩) (by decide)
  have h₁ := reachable_sampleView (h := ⟨1, .outside⟩) (by decide)
  have h₂ := reachable_sampleView (h := ⟨2, .inside⟩) (by decide)
  ⟨h₀, h₁, h₂, booleanLaws_of_reachable h₀ h₁ h₂, by decide⟩

end Allotment.View
