import Allotment.Proofs.IntervalSet.Region
import Allotment.Proofs.IntervalSet.Store

namespace Allotment.Store

/-!
# The outside as a set of its own

The outside of a set holds no intervals; a change of it is made by the opposite change of the set.
A copy of the outside has intervals of its own, and the change is made to them.  The two ways go
through different code: where the one cuts members, the other one joins them.  Still nobody can tell
them apart:

* `Call` — a change with the handle left open, so that it can be made through several handles;
* `inStep` — makes each of several changes through one handle and then through another;
* `Twins` — two handles of different cells whose views cover the same cuts;
* `Twins.perform` — a change through both handles is answered alike and leaves them twins;
* `run_complement_inStep` — so it is for the outside of a set and a copy of it.
-/

universe u

variable {α : Type u} {cmp : α → α → Ordering}

/-! ### Changes through two handles -/

/-- A change that can be asked of any set.  A bulk change names the set that it reads by a
    handle. -/
inductive Call (α : Type u) where
  | add (r : Option (Range α))
  | remove (r : Option (Range α))
  | addAll (other : Option Handle)
  | removeAll (other : Option Handle)
  | clear

namespace Call

/-- The request for a change through a handle. -/
def on (h : Handle) : Call α → Request α
  | .add r => .add h r
  | .remove r => .remove h r
  | .addAll other => .addAll h other
  | .removeAll other => .removeAll h other
  | .clear => .clear h

/-- A change whose range, if it has one, is read in the order `cmp`. -/
def ReadIn (cmp : α → α → Ordering) : Call α → Prop
  | .add r | .remove r => ∀ x, r = some x → x.cmp = cmp
  | .addAll _ | .removeAll _ | .clear => True

/-- A change that does not read the cell that the handle `h` names, from either side. -/
def Avoids (h : Handle) : Call α → Prop
  | .addAll other | .removeAll other => ∀ t, other = some t → t.cell ≠ h.cell
  | .add _ | .remove _ | .clear => True

/-- The edit that a change comes down to in a store. -/
def edit (st : Store α) : Call α → Edit α
  | .add r => .add r
  | .remove r => .remove r
  | .addAll other => .addAll (st.intervals? other)
  | .removeAll other => .removeAll (st.intervals? other)
  | .clear => .clear

/-- The edit of a request reads the ranges of the request. -/
theorem ReadIn.edit {q : Call α} (hq : q.ReadIn cmp) (st : Store α) : (q.edit st).ReadIn cmp := by
  cases q with
  | add r => exact hq
  | remove r => exact hq
  | addAll other => trivial
  | removeAll other => trivial
  | clear => trivial

end Call

/-- A store after a change through two handles, and what was refused through each of them. -/
structure Outcome (α : Type u) where
  store : Store α
  first : List (SetError α)
  second : List (SetError α)

/-- Makes each of several changes through the handle `h` and then through the handle `k`. -/
def inStep (st : Store α) (h k : Handle) : List (Call α) → List (Outcome α)
  | [] => []
  | q :: qs =>
    let one := st.perform (q.on h)
    let both := one.1.perform (q.on k)
    ⟨both.1, one.2, both.2⟩ :: both.1.inStep h k qs

variable {st : Store α} {h k : Handle} {c d : Cell α}

/-- A request for a set is an edit of this set; what it names by a handle is read before. -/
theorem perform_on (st : Store α) (h : Handle) (q : Call α) :
    st.perform (q.on h) = st.edit h (q.edit st) := by
  cases q <;> rfl

/-- An edit puts the changed cell in the place of the old one. -/
theorem edit_of_cell? (hc : st.cell? h = some c) (e : Edit α) :
    st.edit h e = (⟨st.cells.set h.cell (c.applyTo h.side e).1⟩, (c.applyTo h.side e).2) := by
  unfold edit
  rw [hc]

/-- The view by a handle is that of its cell. -/
theorem view?_of_cell? (hc : st.cell? h = some c) : st.view? h = some (c.view h.side) := by
  unfold view?
  rw [hc]
  rfl

/-- A new cell leaves the other ones where they were. -/
theorem cell?_push (hc : st.cell? h = some c) : (st.push d).1.cell? h = some c :=
  (List.getElem?_append_left (List.getElem?_eq_some_iff.mp hc).1).trans hc

/-- A new cell is found under the handle that was free. -/
theorem cell?_push_fresh : (st.push d).1.cell? st.fresh = some d :=
  List.getElem?_concat_length ..

/-- A copy is a new cell with the intervals of the view. -/
theorem perform_copy {w : View α} (hw : st.view? h = some w) :
    st.perform (.copy h) = ((st.push (.ofSet w.copy)).1, []) := by
  simp only [perform, pushFrom, hw]

/-- A change through a handle leaves the other cells as they are. -/
theorem cell?_edit_of_ne (hne : k.cell ≠ h.cell) (e : Edit α) :
    (st.edit h e).1.cell? k = st.cell? k := by
  unfold edit
  cases st.cell? h with
  | none => rfl
  | some c => exact List.getElem?_set_ne hne.symm

/-- A change that does not read a cell comes down to the same edit after that cell was changed. -/
theorem edit_eq_of_avoids {q : Call α} (hq : q.Avoids h) (e : Edit α) :
    q.edit (st.edit h e).1 = q.edit st := by
  -- The other sets are the same before and after the edit.
  have hintervals : ∀ other : Option Handle, (∀ t, other = some t → t.cell ≠ h.cell) →
      (st.edit h e).1.intervals? other = st.intervals? other := by
    intro other hother
    cases other with
    | none => rfl
    | some t =>
      show (((st.edit h e).1.cell? t).map _).map _ = ((st.cell? t).map _).map _
      rw [cell?_edit_of_ne (hother t rfl)]
  cases q with
  | add r => rfl
  | remove r => rfl
  | addAll other => exact congrArg Edit.addAll (hintervals other hq)
  | removeAll other => exact congrArg Edit.removeAll (hintervals other hq)
  | clear => rfl

/-! ### Twins -/

/-- Two handles of different cells, both of which may be edited, whose views cover the same cuts. -/
structure Twins (cmp : α → α → Ordering) (st : Store α) (h k : Handle) (c d : Cell α) : Prop where
  sound : st.Sound cmp
  distinct : k.cell ≠ h.cell
  left : st.cell? h = some c
  right : st.cell? k = some d
  leftEditable : c.isReadOnly = false
  rightEditable : d.isReadOnly = false
  region : (c.view h.side).region cmp = (d.view k.side).region cmp

variable [Std.TransCmp cmp]

/-- A change through both handles refuses the same and makes the same of both regions.  It comes
    down to one edit, although the first cell has changed when the second one is reached. -/
theorem Twins.perform (ht : Twins cmp st h k c d) {q : Call α} (hq : q.ReadIn cmp)
    (hav : q.Avoids h) :
    (st.perform (q.on h)).2 = ((st.perform (q.on h)).1.perform (q.on k)).2 ∧
      Twins cmp ((st.perform (q.on h)).1.perform (q.on k)).1 h k
        (c.applyTo h.side (q.edit st)).1 (d.applyTo k.side (q.edit st)).1 := by
  have he := hq.edit st
  have hc := ht.sound.cell ht.left
  have hd := ht.sound.cell ht.right
  -- The store after the change through the first handle.
  have hsound₁ := sound_edit ht.sound h he
  have hright₁ : (st.edit h (q.edit st)).1.cell? k = some d :=
    (cell?_edit_of_ne ht.distinct _).trans ht.right
  have hleft₁ : (st.edit h (q.edit st)).1.cell? h = some (c.applyTo h.side (q.edit st)).1 := by
    rw [edit_of_cell? ht.left]
    exact List.getElem?_set_self (List.getElem?_eq_some_iff.mp ht.left).1
  rw [perform_on, perform_on, edit_eq_of_avoids hav]
  refine ⟨?_, sound_edit hsound₁ k he, ht.distinct, ?_, ?_, ?_, ?_, ?_⟩
  · rw [edit_of_cell? hright₁, edit_of_cell? ht.left]
    exact (Cell.refused_applyTo hc.order ht.leftEditable h.side _).trans
      (Cell.refused_applyTo hd.order ht.rightEditable k.side _).symm
  · exact (cell?_edit_of_ne ht.distinct.symm _).trans hleft₁
  · rw [edit_of_cell? hright₁]
    exact List.getElem?_set_self (List.getElem?_eq_some_iff.mp hright₁).1
  · rw [Cell.applyTo_isReadOnly, ht.leftEditable]
  · rw [Cell.applyTo_isReadOnly, ht.rightEditable]
  · rw [Cell.region_applyTo hc ht.leftEditable h.side he,
      Cell.region_applyTo hd ht.rightEditable k.side he, ht.region]

/-- Twins have equal views, on either side. -/
theorem Twins.equal (ht : Twins cmp st h k c d) :
    (c.view h.side).equal (some (d.view k.side)) ∧
      (c.view h.side).complement.equal (some (d.view k.side).complement) := by
  have hc := (ht.sound.cell ht.left).view h.side
  have hd := (ht.sound.cell ht.right).view k.side
  refine ⟨(View.equal_iff hc hd).mpr ht.region, (View.equal_iff hc.complement hd.complement).mpr ?_⟩
  rw [View.region_complement hc, View.region_complement hd, ht.region]

/-- Whatever is changed through both handles, in step, they stay twins. -/
theorem Twins.inStep (ht : Twins cmp st h k c d) {qs : List (Call α)}
    (hqs : ∀ q ∈ qs, q.ReadIn cmp ∧ q.Avoids h) :
    ∀ o ∈ st.inStep h k qs, o.first = o.second ∧ ∃ c d, Twins cmp o.store h k c d := by
  induction qs generalizing st c d with
  | nil =>
    intro o ho
    cases ho
  | cons q qs ih =>
    obtain ⟨hread, hav⟩ := hqs q (List.mem_cons_self ..)
    obtain ⟨hrefused, ht'⟩ := ht.perform hread hav
    intro o ho
    rcases List.mem_cons.mp ho with rfl | ho
    · exact ⟨hrefused, _, _, ht'⟩
    · exact ih ht' (fun x hx => hqs x (List.mem_cons_of_mem _ hx)) o ho

/-- A view and a fresh copy of it are twins. -/
theorem twins_copy (hst : st.Sound cmp) (hc : st.cell? h = some c) (hread : c.isReadOnly = false) :
    Twins cmp (st.perform (.copy h)).1 h st.fresh c (.ofSet (c.view h.side).copy) := by
  have hstore : (st.perform (.copy h)).1 = (st.push (.ofSet (c.view h.side).copy)).1 := by
    rw [perform_copy (view?_of_cell? hc)]
  have hlt : h.cell < st.cells.length := (List.getElem?_eq_some_iff.mp hc).1
  have hwsound := (hst.cell hc).view h.side
  refine ⟨sound_perform hst (q := .copy h) trivial, Nat.ne_of_gt hlt, ?_, ?_, hread, rfl, ?_⟩
  · rw [hstore]
    exact cell?_push hc
  · rw [hstore]
    exact cell?_push_fresh
  · show _ = IntervalSet.region cmp (c.view h.side).copy.members
    rw [hwsound.copy_eq]
    rfl

/-- **The outside of a set behaves as a set of its own.**  Take any set that a run of requests in
    one order made and that may be edited, and copy its outside.  Make any changes, each through the
    outside of the set and then through the copy; they may read other sets, but not this one.  Each
    change is refused for the same reasons through both, or accepted through both; after each of
    them the outside equals the copy, and the set equals the outside of the copy. -/
theorem run_complement_inStep {qs : List (Request α)} (hqs : ∀ q ∈ qs, q.ReadIn cmp)
    (hc : ((empty : Store α).run qs).cell? h = some c) (hread : c.isReadOnly = false)
    {calls : List (Call α)} (hcalls : ∀ q ∈ calls, q.ReadIn cmp ∧ q.Avoids h) :
    ∀ o ∈ (((empty : Store α).run qs).perform (.copy h.complement)).1.inStep h.complement
        ((empty : Store α).run qs).fresh calls,
      o.first = o.second ∧ ∃ s outside copy, o.store.view? h = some s ∧
        o.store.view? h.complement = some outside ∧
        o.store.view? ((empty : Store α).run qs).fresh = some copy ∧
        outside.equal (some copy) ∧ s.equal (some copy.complement) := by
  intro o ho
  have hsound : ((empty : Store α).run qs).Sound cmp := sound_run sound_empty hqs
  obtain ⟨hrefused, c', d', ht⟩ :=
    (twins_copy (h := h.complement) hsound hc hread).inStep hcalls o ho
  -- The outside is a view of the cell that is edited, so its inside is found there too.
  have hview : ∀ side, o.store.view? ⟨h.cell, side⟩ = some (c'.view side) := by
    intro side
    show (o.store.cell? h.complement).map _ = _
    rw [ht.left]
    rfl
  have hcopy : o.store.view? ((empty : Store α).run qs).fresh = some (d'.view .inside) := by
    show (o.store.cell? _).map _ = _
    rw [ht.right]
    rfl
  obtain ⟨hequal, hequal'⟩ := ht.equal
  refine ⟨hrefused, c'.view h.side, c'.view h.side.flip, d'.view .inside, hview _, hview _, hcopy,
    hequal, ?_⟩
  obtain ⟨cell, side⟩ := h
  cases side with
  | inside => exact hequal'
  | outside => exact hequal'

/-- Changes of all kinds, one of them without a range and one with an inverted range. -/
def sampleCalls : List (Call Int) :=
  [.add (some ⟨.closed 2 4, compare⟩), .add none, .remove (some ⟨⟨.above 5, .top⟩, compare⟩),
    .addAll (some ⟨0, .inside⟩), .remove (some ⟨.closed 9 2, compare⟩),
    .removeAll (some ⟨3, .inside⟩), .clear]

/-- The sample changes made through the outside of the second set of the sample run, and through a
    copy of it. -/
def sampleOutcomes : List (Outcome Int) :=
  (((empty : Store Int).run sampleRun).perform (.copy (Handle.complement ⟨1, .inside⟩))).1.inStep
    (Handle.complement ⟨1, .inside⟩) ((empty : Store Int).run sampleRun).fresh sampleCalls

/-- Seven requests to an outside and to its copy; two of them are refused, and one reads the copy
    itself. -/
theorem sampleOutcomes_alike :
    sampleOutcomes.map (fun o =>
      (o.first.length, (o.store.intervals? (some ⟨1, .outside⟩)).map List.length)) =
        [(0, some 2), (1, some 2), (0, some 2), (0, some 1), (1, some 1), (0, some 0),
          (0, some 0)] ∧
      ∀ o ∈ sampleOutcomes, o.first = o.second ∧
        ∃ s outside copy, o.store.view? ⟨1, .inside⟩ = some s ∧
        o.store.view? ⟨1, .outside⟩ = some outside ∧ o.store.view? ⟨3, .inside⟩ = some copy ∧
        outside.equal (some copy) ∧ s.equal (some copy.complement) := by
  have hcalls : ∀ q ∈ sampleCalls, q.ReadIn compare ∧ q.Avoids ⟨1, .inside⟩ := by
    simp [sampleCalls, Call.ReadIn, Call.Avoids]
  exact ⟨by decide, run_complement_inStep readIn_sampleRun rfl rfl hcalls⟩

end Allotment.Store
