import Allotment.Proofs.IntervalSet.Algebra
import Allotment.Proofs.IntervalSet.Complement

namespace Allotment

/-!
# Bulk changes

A bulk change takes the intervals of one set, one by one, and adds them to another set or removes
them from it.  Nothing keeps the two sets apart: the set that is read may be the one that is
changed, or its outside, and then each step changes what is read.  So all intervals are taken before
the first step.

* `Combination` — unions, differences and common parts, each a copy of one set with one bulk change;
* `Store.combine_eq` — in a store, such a combination makes the new set and touches no other;
* `Combination.contains_cell` — what the new set contains;
* `Store.Editable.perform` — what one change does to a set that may be edited;
* `Store.perform_reading_copy` — it does not matter whether a bulk change reads a set or a copy of
  it;
* `Store.removeAll_self`, `Store.addAll_complement` — a set that is changed by itself, or by its
  outside;
* `Store.BulkLaws`, `Store.bulkLaws_of_reachable` — all of this for the stores that requests can
  make.
-/

universe u

variable {α : Type u} {cmp : α → α → Ordering}

/-! ### New sets from two -/

/-- A way to make a new set of two. -/
inductive Combination where
  | union
  | difference
  | meet
deriving DecidableEq

namespace Combination

/-- The new set, and what was refused while it was made. -/
def cell : Combination → View α → View α → Cell α × List (SetError α)
  | .union => Cell.union
  | .difference => Cell.difference
  | .meet => Cell.meet

/-- Whether the new set contains a value, given whether the two sets do. -/
def holds : Combination → Bool → Bool → Bool
  | .union, a, b => a || b
  | .difference, a, b => a && !b
  | .meet, a, b => a && b

/-- The bulk change of a copy of the first set; `k` names the second one. -/
def call (k : Handle) : Combination → Store.Call α
  | .union => .addAll (some k)
  | .difference => .removeAll (some k)
  | .meet => .removeAll (some k.complement)

variable [Std.TransCmp cmp] {a b : View α}

/-- Each combination is sound if its first operand is. -/
theorem sound_cell (op : Combination) (ha : a.Sound cmp) :
    ((op.cell a b).1.view .inside).Sound cmp := by
  cases op with
  | union => exact ha.union b
  | difference => exact ha.difference b
  | meet => exact ha.meet b

/-- No combination of sound sets is refused. -/
theorem refused_cell (op : Combination) (ha : a.Sound cmp) (hb : b.Sound cmp) :
    (op.cell a b).2 = [] := by
  cases op with
  | union => exact (View.refused_edit_copy ha hb).1
  | difference => exact (View.refused_edit_copy ha hb).2
  | meet => exact (View.refused_edit_copy ha hb.complement).2

/-- A combination can be changed, also one of sets that cannot. -/
theorem isReadOnly_cell (op : Combination) (a b : View α) : (op.cell a b).1.isReadOnly = false := by
  cases op with
  | union => exact Cell.apply_isReadOnly _
  | difference => exact Cell.apply_isReadOnly _
  | meet => exact Cell.apply_isReadOnly _

/-- The new set contains what it should, value by value. -/
theorem contains_cell (op : Combination) (ha : a.Sound cmp) (hb : b.Sound cmp) (v : α) :
    ((op.cell a b).1.view .inside).contains v = op.holds (a.contains v) (b.contains v) := by
  rw [Bool.eq_iff_iff, (op.sound_cell ha).contains_iff]
  cases op with
  | union =>
    show _ ∈ (a.union b).region cmp ↔ _
    rw [View.region_union ha, Set.mem_union, ← ha.contains_iff, ← hb.contains_iff, holds,
      Bool.or_eq_true]
  | difference =>
    show _ ∈ (a.difference b).region cmp ↔ _
    rw [View.region_difference ha, Set.mem_sdiff, ← ha.contains_iff, ← hb.contains_iff, holds,
      Bool.and_eq_true, Bool.not_eq_true', Bool.not_eq_true]
  | meet =>
    show _ ∈ (a.meet b).region cmp ↔ _
    rw [View.region_meet ha hb, Set.mem_inter_iff, ← ha.contains_iff, ← hb.contains_iff, holds,
      Bool.and_eq_true]

end Combination

namespace Store

variable {st : Store α} {h k : Handle} {a b w : View α} {c x : Cell α}

/-- The two handles of a cell name the two sides of one set. -/
theorem view?_complement (hw : st.view? h = some w) :
    st.view? h.complement = some w.complement := by
  obtain ⟨c, hc, rfl⟩ := Option.map_eq_some_iff.mp hw
  exact view?_of_cell? (h := h.complement) hc

/-- A change reads the intervals of the view that it is given. -/
theorem intervals?_of_view? (hw : st.view? h = some w) :
    st.intervals? (some h) = some w.intervals := by
  show (st.view? h).map _ = _
  rw [hw]
  rfl

/-- All views of a sound store are sound. -/
theorem Sound.view (hst : st.Sound cmp) (hw : st.view? h = some w) : w.Sound cmp := by
  obtain ⟨c, hc, rfl⟩ := Option.map_eq_some_iff.mp hw
  exact (hst.cell hc).view h.side

/-! ### A store with one more cell -/

/-- One more cell leaves all views as they are. -/
theorem view?_push (hw : st.view? h = some w) : (st.push x).1.view? h = some w := by
  obtain ⟨c, hc, rfl⟩ := Option.map_eq_some_iff.mp hw
  exact view?_of_cell? (cell?_push hc)

/-- A change of an old cell does not see the new one. -/
theorem edit_push (hc : st.cell? h = some c) (e : Edit α) :
    (st.push x).1.edit h e = (((st.edit h e).1.push x).1, (st.edit h e).2) := by
  rw [edit_of_cell? hc, edit_of_cell? (cell?_push hc)]
  refine Prod.ext (congrArg Store.mk ?_) rfl
  exact List.set_append_left _ _ (List.getElem?_eq_some_iff.mp hc).1

/-- A change of the new cell leaves the old ones as they are. -/
theorem edit_push_fresh (e : Edit α) :
    (st.push x).1.edit st.fresh e = ((st.push (x.apply e).1).1, (x.apply e).2) := by
  rw [edit_of_cell? cell?_push_fresh]
  refine Prod.ext (congrArg Store.mk ?_) rfl
  show (st.cells ++ [x]).set st.cells.length _ = _
  rw [List.set_append_right _ _ (Nat.le_refl _), Nat.sub_self]
  rfl

/-! ### Combinations in a store -/

/-- Copies the set that `h` names and makes the copy the new set, with the set that `k` names. -/
def combine (st : Store α) (op : Combination) (h k : Handle) : Store α × List (SetError α) :=
  (st.perform (.copy h)).1.perform ((op.call k).on st.fresh)

/-- A combination puts the new set into the store and does nothing else. -/
theorem combine_eq (op : Combination) (ha : st.view? h = some a) (hb : st.view? k = some b) :
    st.combine op h k = ((st.push (op.cell a b).1).1, (op.cell a b).2) := by
  have hintervals : (st.push (.ofSet a.copy)).1.intervals? (some k) = some b.intervals :=
    intervals?_of_view? (view?_push hb)
  -- The other operand is read after the copy was put into the store, which leaves it as it was.
  have hcomplement : (st.push (.ofSet a.copy)).1.intervals? (some k.complement) =
      some b.complement.intervals :=
    intervals?_of_view? (view?_push (view?_complement hb))
  unfold combine
  rw [perform_copy ha, perform_on, edit_push_fresh]
  cases op with
  | union =>
    simp only [Combination.call, Call.edit, hintervals]
    rfl
  | difference =>
    simp only [Combination.call, Call.edit, hintervals]
    rfl
  | meet =>
    simp only [Combination.call, Call.edit, hcomplement]
    rfl

/-! ### One change of a set -/

/-- In a sound store, `h` names a set that may be edited and that covers the cuts of `area`. -/
structure Editable (cmp : α → α → Ordering) (st : Store α) (h : Handle) (area : Set (Cut.Start α)) :
    Prop where
  sound : st.Sound cmp
  cell : ∃ c, st.cell? h = some c ∧ c.isReadOnly = false ∧ (c.view h.side).region cmp = area

/-- A set that can be changed has a sound view, with the region that is said. -/
theorem Editable.view {area : Set (Cut.Start α)} (hst : st.Editable cmp h area) :
    ∃ w, st.view? h = some w ∧ w.Sound cmp ∧ w.region cmp = area := by
  obtain ⟨hsound, c, hc, -, hregion⟩ := hst
  exact ⟨c.view h.side, view?_of_cell? hc, (hsound.cell hc).view h.side, hregion⟩

/-- A change refuses what its edit refuses of every set, and the set covers then what the edit
    says. -/
theorem Editable.perform [Std.TransCmp cmp] {area : Set (Cut.Start α)}
    (hst : st.Editable cmp h area) {q : Call α} (hq : q.ReadIn cmp) :
    (st.perform (q.on h)).2 = (q.edit st).refusals cmp ∧
      (st.perform (q.on h)).1.Editable cmp h ((q.edit st).onRegion cmp area) := by
  obtain ⟨hsound, c, hc, hread, rfl⟩ := hst
  have he := hq.edit st
  have hafter := sound_edit hsound h he
  have hcsound := hsound.cell hc
  rw [edit_of_cell? hc] at hafter
  rw [perform_on, edit_of_cell? hc]
  refine ⟨Cell.refused_applyTo hcsound.order hread h.side _, hafter,
    (c.applyTo h.side (q.edit st)).1, ?_, ?_, ?_⟩
  · exact List.getElem?_set_self (List.getElem?_eq_some_iff.mp hc).1
  · rw [Cell.applyTo_isReadOnly, hread]
  · exact Cell.region_applyTo hcsound hread h.side he

/-! ### Reading a set while it changes -/

/-- The two bulk changes. -/
inductive Bulk where
  | addAll
  | removeAll
deriving DecidableEq

/-- A bulk change that reads the set that `k` names. -/
def Bulk.reading (k : Handle) : Bulk → Call α
  | .addAll => .addAll (some k)
  | .removeAll => .removeAll (some k)

/-- The edit of a bulk change depends on the intervals that are read, and on nothing else in the
    store. -/
theorem edit_reading {st st' : Store α} {k k' : Handle}
    (h : st.intervals? (some k) = st'.intervals? (some k')) (q : Bulk) :
    (q.reading k).edit st = (q.reading k').edit st' := by
  cases q with
  | addAll => exact congrArg Edit.addAll h
  | removeAll => exact congrArg Edit.removeAll h

variable [Std.TransCmp cmp]

/-- A bulk change may as well read a copy that is made before it, whatever the set that it reads has
    to do with the set that it changes. -/
theorem perform_reading_copy (hb : b.Sound cmp) (hc : st.cell? h = some c)
    (hk : st.view? k = some b) (q : Bulk) :
    (st.perform (.copy k)).1.perform ((q.reading st.fresh).on h) =
      (((st.perform ((q.reading k).on h)).1.push (.ofSet b.copy)).1,
        (st.perform ((q.reading k).on h)).2) := by
  have hsame : (st.push (.ofSet b.copy)).1.intervals? (some st.fresh) = st.intervals? (some k) := by
    rw [intervals?_of_view? hk, intervals?_of_view? (view?_of_cell? cell?_push_fresh)]
    show some b.copy.members = some b.intervals
    rw [hb.copy_eq]
  rw [perform_copy hk, perform_on, perform_on, edit_push hc, edit_reading hsame]

/-- A bulk change that reads a sound view is not refused, and changes the region as the edit
    says. -/
theorem perform_reading (hst : st.Sound cmp) (hc : st.cell? h = some c)
    (hread : c.isReadOnly = false) (hk : st.view? k = some b) (q : Bulk) :
    (st.perform ((q.reading k).on h)).2 = [] ∧
      ∃ w, (st.perform ((q.reading k).on h)).1.view? h = some w ∧ w.Sound cmp ∧
        w.region cmp = ((q.reading k).edit st).onRegion cmp ((c.view h.side).region cmp) := by
  have hq : (q.reading k : Call α).ReadIn cmp := by cases q <;> trivial
  have hb := hst.view hk
  have hintervals := intervals?_of_view? hk
  obtain ⟨hrefused, hafter⟩ := Editable.perform ⟨hst, c, hc, hread, rfl⟩ hq
  refine ⟨hrefused.trans ?_, hafter.view⟩
  cases q with
  | addAll =>
    simp only [Bulk.reading, Call.edit, hintervals]
    exact hb.refusals_addAll
  | removeAll =>
    simp only [Bulk.reading, Call.edit, hintervals]
    exact hb.refusals_addAll

/-- A set from which its own intervals are removed is empty. -/
theorem removeAll_self (hst : st.Sound cmp) (hc : st.cell? h = some c)
    (hread : c.isReadOnly = false) :
    (st.perform (.removeAll h (some h))).2 = [] ∧
      (st.perform (.removeAll h (some h))).1.intervals? (some h) = some [] := by
  obtain ⟨hrefused, w, hw, hsound, hregion⟩ := perform_reading hst hc hread
    (view?_of_cell? hc) .removeAll
  have hempty : w.region cmp = ∅ := by
    rw [hregion]
    show _ \ IntervalSet.region cmp ((st.intervals? (some h)).getD []) = _
    rw [intervals?_of_view? (view?_of_cell? hc)]
    exact Set.sdiff_self
  refine ⟨hrefused, (intervals?_of_view? hw).trans ?_⟩
  rw [hsound.intervals.eq_nil hempty]

/-- A set to which the intervals of its own outside are added is everything. -/
theorem addAll_complement (hst : st.Sound cmp) (hc : st.cell? h = some c)
    (hread : c.isReadOnly = false) :
    (st.perform (.addAll h (some h.complement))).2 = [] ∧
      (st.perform (.addAll h (some h.complement))).1.intervals? (some h) = some [.all] := by
  have hview := view?_complement (view?_of_cell? hc)
  obtain ⟨hrefused, w, hw, hsound, hregion⟩ := perform_reading hst hc hread hview .addAll
  have huniv : w.region cmp = Set.univ := by
    rw [hregion]
    show _ ∪ IntervalSet.region cmp ((st.intervals? (some h.complement)).getD []) = _
    rw [intervals?_of_view? hview]
    show _ ∪ (c.view h.side).complement.region cmp = _
    rw [View.region_complement ((hst.cell hc).view h.side), Set.union_compl_self]
  refine ⟨hrefused, (intervals?_of_view? hw).trans ?_⟩
  rw [hsound.intervals.eq_all huniv]

/-! ### Stores that requests can make -/

/-- A store that some run of requests in the order `cmp` makes. -/
def Reachable (cmp : α → α → Ordering) (st : Store α) : Prop :=
  ∃ qs : List (Request α), (∀ q ∈ qs, q.ReadIn cmp) ∧ (empty : Store α).run qs = st

/-- All stores that requests make are sound. -/
theorem Reachable.sound (hst : st.Reachable cmp) : st.Sound cmp := by
  obtain ⟨qs, hqs, rfl⟩ := hst
  exact sound_run sound_empty hqs

/-- What bulk changes and combinations do with the views `a` and `b` that `h` and `k` name.  The
    handles may name the same cell, from the same side or from different ones. -/
structure BulkLaws (st : Store α) (h k : Handle) (a b : View α) : Prop where
  /-- A combination reports nothing and does no more than to put the new set into the store. -/
  combine_eq : ∀ op : Combination, st.combine op h k = ((st.push (op.cell a b).1).1, [])
  contains_combine : ∀ (op : Combination) (v : α),
    ((st.combine op h k).1.view? st.fresh).map (fun w => w.contains v) =
    some (op.holds (a.contains v) (b.contains v))
  /-- All sets that were there have the intervals that they had. -/
  intervals_combine : ∀ (op : Combination) (i : Handle) (w : View α), st.view? i = some w →
    (st.combine op h k).1.intervals? (some i) = some w.intervals
  /-- With a copy that is made before, a bulk change gives the same store, but for the copy, and the
      same report. -/
  perform_reading_copy : ∀ q : Bulk, (st.perform (.copy k)).1.perform ((q.reading st.fresh).on h) =
    (((st.perform ((q.reading k).on h)).1.push (.ofSet b.copy)).1,
      (st.perform ((q.reading k).on h)).2)
  removeAll_self : ∀ c, st.cell? h = some c → c.isReadOnly = false →
    (st.perform (.removeAll h (some h))).2 = [] ∧
      (st.perform (.removeAll h (some h))).1.intervals? (some h) = some []
  addAll_complement : ∀ c, st.cell? h = some c → c.isReadOnly = false →
    (st.perform (.addAll h (some h.complement))).2 = [] ∧
      (st.perform (.addAll h (some h.complement))).1.intervals? (some h) = some [.all]

/-- **Bulk changes and combinations are exact, whatever the sets share.**  Take any two views in a
    store that requests in one order can make.  The union, the difference and the common part of the
    two are made without an error, they contain exactly the values that they should, and all other
    sets keep their intervals.  Adding the intervals of the one to the other, or removing them, does
    the same as with a copy that is made before; so a set that is removed from itself is empty, and
    a set with its outside added is everything. -/
theorem bulkLaws_of_reachable (hst : st.Reachable cmp) (ha : st.view? h = some a)
    (hb : st.view? k = some b) : BulkLaws st h k a b := by
  have hsound := hst.sound
  have hcombine : ∀ op : Combination, st.combine op h k = ((st.push (op.cell a b).1).1, []) := by
    intro op
    rw [combine_eq op ha hb, op.refused_cell (hsound.view ha) (hsound.view hb)]
  refine ⟨hcombine, ?_, ?_, ?_, fun c hc hread => removeAll_self hsound hc hread,
    fun c hc hread => addAll_complement hsound hc hread⟩
  · intro op v
    rw [hcombine op, view?_of_cell? cell?_push_fresh, Option.map_some]
    exact congrArg some (op.contains_cell (hsound.view ha) (hsound.view hb) v)
  · intro op i w hw
    rw [hcombine op]
    exact intervals?_of_view? (view?_push hw)
  · -- The cell is there, since it has a view.
    intro q
    obtain ⟨c, hc, -⟩ := Option.map_eq_some_iff.mp ha
    exact perform_reading_copy (hsound.view hb) hc hb q

/-- A set and its own outside as operands, and a change of the outside. -/
theorem sampleSets_bulkLaws :
    ((empty : Store Int).run View.sampleSets).Reachable compare ∧
      ((empty : Store Int).run View.sampleSets).view? ⟨1, .inside⟩ =
      some (View.sampleView ⟨1, .inside⟩) ∧
      ((empty : Store Int).run View.sampleSets).view? ⟨1, .outside⟩ =
      some (View.sampleView ⟨1, .outside⟩) ∧
      BulkLaws ((empty : Store Int).run View.sampleSets) ⟨1, .inside⟩ ⟨1, .outside⟩
        (View.sampleView ⟨1, .inside⟩) (View.sampleView ⟨1, .outside⟩) ∧
      (((empty : Store Int).run View.sampleSets).perform
        (.removeAll ⟨1, .outside⟩ (some ⟨0, .inside⟩))).1.intervals? (some ⟨1, .outside⟩) =
          some [⟨.bottom, .below 1⟩, ⟨.below 9, .top⟩] :=
  have hreach : ((empty : Store Int).run View.sampleSets).Reachable compare :=
    ⟨View.sampleSets, by simp [View.sampleSets, Request.ReadIn], rfl⟩
  ⟨hreach, rfl, rfl, bulkLaws_of_reachable hreach rfl rfl, by decide⟩

end Store

end Allotment
