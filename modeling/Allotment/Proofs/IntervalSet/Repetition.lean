import Allotment.Proofs.IntervalSet.Bulk

namespace Allotment

/-!
# Ranges in any order

A range that is added to a set merges with the members that it meets, and these are what the ranges
before it have left.  So each order of some ranges takes its own way.  All ways end in the same set,
however often each range is taken, and the same is true of ranges that are removed.

* `Cell.ofRanges_spec` — a set made from valid ranges covers what one of them does, and none of them
  is refused;
* `Store.Single` — the two changes by one range;
* `Store.Leads`, `Store.Editable.leads_each` — what a set covers after a run of such changes;
* `Store.SameAfter` — two runs that refuse nothing and make the same of a set;
* `Store.RangeLaws`, `Store.rangeLaws_of_reachable` — order and repetition do not matter, nor what
  the opposite change did with the same range before.
-/

universe u

variable {α : Type u} {cmp : α → α → Ordering}

/-- One of some ranges contains a value when the value is in the region of them all. -/
theorem Range.any_contains_iff [Std.TransCmp cmp] {rs : List (Range α)}
    (hrs : ∀ r ∈ rs, r.cmp = cmp) (v : α) :
    (rs.any fun r => r.contains v) ↔
      Cut.Start.below v ∈ IntervalSet.region cmp (rs.map Range.toInterval) := by
  simp only [List.any_eq_true, IntervalSet.mem_region, IntervalSet.Covers, List.mem_map,
    exists_exists_and_eq_and]
  refine exists_congr fun r => and_congr_right fun hr => ?_
  rw [← Interval.contains_iff_spans, ← hrs r hr]
  rfl

/-! ### New sets -/

namespace Cell

variable [Std.TransCmp cmp] {c : Cell α} {rs : List (Range α)}

/-- Adding valid ranges, one after another. -/
theorem applyList_add (hc : c.Sound cmp) (hread : c.isReadOnly = false)
    (hrs : ∀ r ∈ rs, r.cmp = cmp ∧ r.isValid) :
    ∃ c', c.applyList (rs.map fun r => .add (some r)) = (c', []) ∧ c'.Sound cmp ∧
      c'.isReadOnly = false ∧
      (c'.view .inside).region cmp =
        (c.view .inside).region cmp ∪ IntervalSet.region cmp (rs.map Range.toInterval) := by
  induction rs generalizing c with
  | nil => exact ⟨c, rfl, hc, hread, by rw [List.map_nil, IntervalSet.region_nil, Set.union_empty]⟩
  | cons r rs ih =>
    obtain ⟨hr, hvalid⟩ := hrs r (List.mem_cons_self ..)
    have he : (Edit.add (some r)).ReadIn cmp := Range.Optional.readIn_some hr
    have hregion : ((c.apply (.add (some r))).1.view .inside).region cmp = _ :=
      region_apply hc hread he
    have hrefused : (c.apply (.add (some r))).2 = [] :=
      (refused_apply hc.order hread _).trans (if_pos hvalid)
    -- The first range is accepted, and the others go into the set that it makes.
    obtain ⟨c', hrest, hsound, hread', hregion'⟩ := ih (sound_apply hc he)
      ((apply_isReadOnly _).trans hread) fun x hx => hrs x (List.mem_cons_of_mem _ hx)
    refine ⟨c', ?_, hsound, hread', ?_⟩
    · simp only [List.map_cons, applyList, hrefused, hrest, List.append_nil]
    · rw [hregion', hregion, List.map_cons, IntervalSet.region_cons]
      exact Set.union_assoc ..

/-- A set made of valid ranges covers what one of them spans. -/
theorem ofRanges_spec (hrs : ∀ r ∈ rs, r.cmp = cmp ∧ r.isValid) :
    ∃ c, ofRanges cmp (rs.map some) = (c, []) ∧ c.Sound cmp ∧ c.isReadOnly = false ∧
      (c.view .inside).region cmp = IntervalSet.region cmp (rs.map Range.toInterval) := by
  have hempty : (ofSet (.empty cmp)).Sound cmp := ⟨rfl, IntervalSet.normal_nil⟩
  obtain ⟨c, hc, hsound, hread, hregion⟩ := applyList_add hempty rfl hrs
  refine ⟨c, ?_, hsound, hread, ?_⟩
  · rw [← hc, ofRanges, List.map_map]
    rfl
  · rw [hregion]
    show IntervalSet.region cmp [] ∪ _ = _
    rw [IntervalSet.region_nil, Set.empty_union]

end Cell

/-! ### Runs of changes by ranges -/

namespace Store

/-- The two changes by one range. -/
inductive Single where
  | add
  | remove
deriving DecidableEq

namespace Single

/-- The change by the range `r`. -/
def taking (r : Range α) : Single → Call α
  | .add => .add (some r)
  | .remove => .remove (some r)

def opposite : Single → Single
  | .add => .remove
  | .remove => .add

/-- Whether the set contains a value after some changes, given whether it did before them and
    whether a range that was taken does. -/
def holds : Single → Bool → Bool → Bool
  | .add, a, b => a || b
  | .remove, a, b => a && !b

/-- What a set covers after some changes, given what it did before them and what the ranges span. -/
def onArea : Single → Set (Cut.Start α) → Set (Cut.Start α) → Set (Cut.Start α)
  | .add, a, b => a ∪ b
  | .remove, a, b => a \ b

/-- A change by nothing changes nothing. -/
theorem onArea_empty (q : Single) (a : Set (Cut.Start α)) : q.onArea a ∅ = a := by
  cases q with
  | add => exact Set.union_empty a
  | remove => exact Set.sdiff_empty

/-- Two changes of one kind are one change by both areas. -/
theorem onArea_onArea (q : Single) (a b b' : Set (Cut.Start α)) :
    q.onArea (q.onArea a b) b' = q.onArea a (b ∪ b') := by
  cases q with
  | add => exact Set.union_assoc a b b'
  | remove => exact Set.sdiff_sdiff

/-- What the opposite change did with the same ranges is undone. -/
theorem onArea_opposite (q : Single) (a b : Set (Cut.Start α)) :
    q.onArea (q.opposite.onArea a b) b = q.onArea a b := by
  cases q with
  | add => exact Set.sdiff_union_self
  | remove => exact Set.union_sdiff_right

/-- A value is in the set after the changes exactly when the cut below it is covered. -/
theorem holds_iff (q : Single) {a b : Set (Cut.Start α)} {k : Cut.Start α} {x y : Bool}
    (hx : x ↔ k ∈ a) (hy : y ↔ k ∈ b) : q.holds x y ↔ k ∈ q.onArea a b := by
  cases q with
  | add => rw [holds, Bool.or_eq_true, hx, hy, onArea, Set.mem_union]
  | remove =>
    rw [holds, Bool.and_eq_true, Bool.not_eq_true', ← Bool.not_eq_true, hx, hy, onArea,
      Set.mem_sdiff]

end Single

/-- All that is refused in a run. -/
def refused (st : Store α) : List (Request α) → List (SetError α)
  | [] => []
  | q :: qs => (st.perform q).2 ++ (st.perform q).1.refused qs

/-- No step of the run `qs` is refused, and after it `h` names a set that may be edited and that
    covers `area`. -/
structure Leads (cmp : α → α → Ordering) (st : Store α) (qs : List (Request α)) (h : Handle)
    (area : Set (Cut.Start α)) : Prop where
  refused : st.refused qs = []
  editable : (st.run qs).Editable cmp h area

/-- Two runs from one store: no step of them is refused, and the sets that `h` names after them are
    equal, whichever of them one asks. -/
def SameAfter (st : Store α) (h : Handle) (qs qs' : List (Request α)) : Prop :=
  st.refused qs = [] ∧ st.refused qs' = [] ∧
    ∃ w w', (st.run qs).view? h = some w ∧ (st.run qs').view? h = some w' ∧
      w.equal (some w') ∧ w'.equal (some w)

/-- The requests for one change with each of some ranges. -/
def each (q : Single) (h : Handle) (rs : List (Range α)) : List (Request α) :=
  rs.map fun r => (q.taking r).on h

variable {st : Store α} {h : Handle} {area : Set (Cut.Start α)}

/-- The run without steps. -/
theorem Editable.leads_nil (hst : st.Editable cmp h area) : st.Leads cmp [] h area :=
  ⟨rfl, hst⟩

/-- A step that is not refused comes before a run. -/
theorem Leads.cons {q : Request α} {qs : List (Request α)} (hq : (st.perform q).2 = [])
    (hqs : (st.perform q).1.Leads cmp qs h area) : st.Leads cmp (q :: qs) h area := by
  refine ⟨?_, hqs.editable⟩
  rw [Store.refused, hq, hqs.refused]
  rfl

variable [Std.TransCmp cmp] {c : Cell α} {r : Range α} {rs : List (Range α)}

/-- A change by a valid range is not refused. -/
theorem Editable.perform_taking (hst : st.Editable cmp h area) (q : Single) (hr : r.cmp = cmp)
    (hvalid : r.isValid) :
    (st.perform ((q.taking r).on h)).2 = [] ∧
      (st.perform ((q.taking r).on h)).1.Editable cmp h
        (q.onArea area (r.toInterval.region cmp)) := by
  have hq : (q.taking r).ReadIn cmp := by
    cases q <;> exact Range.Optional.readIn_some hr
  obtain ⟨hrefused, hafter⟩ := hst.perform hq
  cases q with
  | add => exact ⟨hrefused.trans (if_pos hvalid), hafter⟩
  | remove => exact ⟨hrefused.trans (if_pos hvalid), hafter⟩

/-- By induction on the ranges: each of them changes what the set covers at that time. -/
theorem Editable.leads_each (hst : st.Editable cmp h area) (q : Single)
    (hrs : ∀ r ∈ rs, r.cmp = cmp ∧ r.isValid) :
    st.Leads cmp (each q h rs) h
      (q.onArea area (IntervalSet.region cmp (rs.map Range.toInterval))) := by
  induction rs generalizing st area with
  | nil =>
    rw [List.map_nil, IntervalSet.region_nil, q.onArea_empty]
    exact hst.leads_nil
  | cons r rs ih =>
    obtain ⟨hr, hvalid⟩ := hrs r (List.mem_cons_self ..)
    obtain ⟨hrefused, hafter⟩ := hst.perform_taking q hr hvalid
    have hrest := ih hafter fun x hx => hrs x (List.mem_cons_of_mem _ hx)
    rw [q.onArea_onArea, ← IntervalSet.region_cons] at hrest
    exact .cons hrefused hrest

/-- The opposite change with the same range, just before, makes no difference. -/
theorem Editable.leads_opposite (hst : st.Editable cmp h area) (q : Single) (hr : r.cmp = cmp)
    (hvalid : r.isValid) :
    st.Leads cmp [(q.opposite.taking r).on h, (q.taking r).on h] h
      (q.onArea area (r.toInterval.region cmp)) := by
  obtain ⟨hrefused, hafter⟩ := hst.perform_taking q.opposite hr hvalid
  obtain ⟨hrefused', hafter'⟩ := hafter.perform_taking q hr hvalid
  rw [q.onArea_opposite] at hafter'
  exact .cons hrefused (.cons hrefused' hafter'.leads_nil)

/-- A new set with the union of valid ranges. -/
theorem Sound.leads_make (hst : st.Sound cmp) (hrs : ∀ r ∈ rs, r.cmp = cmp ∧ r.isValid) :
    st.Leads cmp [.make cmp (rs.map some)] st.fresh
      (IntervalSet.region cmp (rs.map Range.toInterval)) := by
  obtain ⟨c, hc, hsound, hread, hregion⟩ := Cell.ofRanges_spec hrs
  have hmake : st.perform (.make cmp (rs.map some)) = ((st.push c).1, []) := by
    show ((st.push (Cell.ofRanges cmp (rs.map some)).1).1, (Cell.ofRanges cmp (rs.map some)).2) = _
    rw [hc]
  refine .cons (congrArg Prod.snd hmake) (Editable.leads_nil ?_)
  rw [hmake]
  exact ⟨sound_push hst hsound, c, cell?_push_fresh, hread, hregion⟩

/-- Runs that lead to the same make equal sets. -/
theorem Leads.sameAfter {qs qs' : List (Request α)} (hqs : st.Leads cmp qs h area)
    (hqs' : st.Leads cmp qs' h area) : st.SameAfter h qs qs' := by
  obtain ⟨w, hw, hsound, hregion⟩ := hqs.editable.view
  obtain ⟨w', hw', hsound', hregion'⟩ := hqs'.editable.view
  refine ⟨hqs.refused, hqs'.refused, w, w', hw, hw', ?_, ?_⟩
  · rw [View.equal_iff hsound hsound', hregion, hregion']
  · rw [View.equal_iff hsound' hsound, hregion, hregion']

/-- What changes by valid ranges make of the set that `h` names, and what new sets are made of valid
    ranges. -/
structure RangeLaws (cmp : α → α → Ordering) (st : Store α) (h : Handle) : Prop where
  /-- The second list has the ranges of the first one, in any order and any number. -/
  each_sameAfter : ∀ (q : Single) (rs rs' : List (Range α)), (∀ r ∈ rs, r.cmp = cmp ∧ r.isValid) →
    (∀ r, r ∈ rs ↔ r ∈ rs') → st.SameAfter h (each q h rs) (each q h rs')
  make_sameAfter : ∀ rs rs' : List (Range α), (∀ r ∈ rs, r.cmp = cmp ∧ r.isValid) →
    (∀ r, r ∈ rs ↔ r ∈ rs') →
    st.SameAfter st.fresh [.make cmp (rs.map some)] [.make cmp (rs'.map some)]
  /-- Whether the opposite change was made with the same range just before. -/
  opposite_sameAfter : ∀ (q : Single) (r : Range α), r.cmp = cmp → r.isValid →
    st.SameAfter h [(q.opposite.taking r).on h, (q.taking r).on h] [(q.taking r).on h]
  contains_each : ∀ (q : Single) (rs : List (Range α)) (v : α),
    (∀ r ∈ rs, r.cmp = cmp ∧ r.isValid) →
    ((st.run (each q h rs)).view? h).map (fun w => w.contains v) =
      (st.view? h).map fun w => q.holds (w.contains v) (rs.any fun r => r.contains v)
  contains_make : ∀ (rs : List (Range α)) (v : α), (∀ r ∈ rs, r.cmp = cmp ∧ r.isValid) →
    ((st.run [.make cmp (rs.map some)]).view? st.fresh).map (fun w => w.contains v) =
      some (rs.any fun r => r.contains v)

/-- **Order and repetition do not matter.**  Take any set that may be edited, or the outside of one,
    in a store that requests in one order can make, and two lists of valid ranges in this order that
    have the same elements.  Adding the one list or the other makes equal sets, and so does removing
    them, and so does making a new set of them.  Nothing is refused, and the set contains then what
    it should.  Adding a range makes the same of the set whether it was removed just before or not,
    and removing it whether it was added. -/
theorem rangeLaws_of_reachable (hst : st.Reachable cmp) (hc : st.cell? h = some c)
    (hread : c.isReadOnly = false) : RangeLaws cmp st h := by
  have hsound := hst.sound
  have hedit : st.Editable cmp h ((c.view h.side).region cmp) := ⟨hsound, c, hc, hread, rfl⟩
  -- Order and number are lost here, and nowhere else.
  have hregion : ∀ {rs rs' : List (Range α)}, (∀ r, r ∈ rs ↔ r ∈ rs') →
      IntervalSet.region cmp (rs'.map Range.toInterval) =
        IntervalSet.region cmp (rs.map Range.toInterval) := by
    intro rs rs' hsame
    exact IntervalSet.region_congr fun m => by simp only [List.mem_map, hsame]
  refine ⟨fun q rs rs' hrs hsame => ?_, fun rs rs' hrs hsame => ?_, fun q r hr hvalid => ?_,
    fun q rs v hrs => ?_, fun rs v hrs => ?_⟩
  · have hrs' := hedit.leads_each q fun r hr => hrs r ((hsame r).mpr hr)
    rw [hregion hsame] at hrs'
    exact (hedit.leads_each q hrs).sameAfter hrs'
  · have hrs' := hsound.leads_make fun r hr => hrs r ((hsame r).mpr hr)
    rw [hregion hsame] at hrs'
    exact (hsound.leads_make hrs).sameAfter hrs'
  · obtain ⟨hrefused, hafter⟩ := hedit.perform_taking q hr hvalid
    exact (hedit.leads_opposite q hr hvalid).sameAfter (.cons hrefused hafter.leads_nil)
  · obtain ⟨w, hw, hwsound, hwregion⟩ := (hedit.leads_each q hrs).editable.view
    rw [hw, view?_of_cell? hc, Option.map_some, Option.map_some, Option.some_inj, Bool.eq_iff_iff,
      hwsound.contains_iff, hwregion]
    exact (q.holds_iff (((hsound.cell hc).view h.side).contains_iff v)
      (Range.any_contains_iff (fun r hr => (hrs r hr).1) v)).symm
  · obtain ⟨w, hw, hwsound, hwregion⟩ := (hsound.leads_make hrs).editable.view
    rw [hw, Option.map_some, Option.some_inj, Bool.eq_iff_iff, hwsound.contains_iff, hwregion,
      Range.any_contains_iff fun r hr => (hrs r hr).1]

/-- Three ranges are added to an outside, one of them twice; two of them stay intervals of their
    own. -/
theorem sampleSets_rangeLaws :
    ((empty : Store Int).run View.sampleSets).Reachable compare ∧
      ∃ c, ((empty : Store Int).run View.sampleSets).cell? ⟨1, .outside⟩ = some c ∧
        c.isReadOnly = false ∧
        RangeLaws compare ((empty : Store Int).run View.sampleSets) ⟨1, .outside⟩ ∧
        (((empty : Store Int).run View.sampleSets).run (each .add ⟨1, .outside⟩
          [⟨.closed 6 6, compare⟩, ⟨.closedOpen 1 4, compare⟩, ⟨.closed 6 6, compare⟩])).intervals?
            (some ⟨1, .outside⟩) =
          some [⟨.bottom, .below 4⟩, ⟨.below 6, .above 6⟩, ⟨.below 8, .top⟩] :=
  have hreach : ((empty : Store Int).run View.sampleSets).Reachable compare :=
    ⟨View.sampleSets, by simp [View.sampleSets, Request.ReadIn], rfl⟩
  ⟨hreach, _, rfl, rfl, rangeLaws_of_reachable hreach rfl rfl, by decide⟩

end Store

end Allotment
