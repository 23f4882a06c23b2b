import Allotment.Proofs.IntervalSet.Repetition
import Allotment.Proofs.IntervalSet.Walk

namespace Allotment

/-!
# Changes without a trace

A set refuses a change when it is read-only, when the range of the change is no range in its order,
or when the change is to read a set and there is none.  The two sides of a set and the different
kinds of changes come to this in different ways: the outside is cleared by adding everything to the
inside, and a bulk change is judged interval by interval.  A change that is refused leaves no trace,
and neither does one by an empty range.

* `Range.Optional.Faulty`, `Store.Call.Faulty` — what is wrong with a change, whatever set it is
  asked of;
* `Store.perform_refused_iff` — which changes are refused;
* `Store.Traceless` — a request after which the store is what it was, also for those who walk over
  its sets;
* `Store.perform_eq_self_of_refused`, `Store.perform_eq_self_of_isEmpty` — which requests are so;
* `Store.run_cell?_of_isReadOnly` — a read-only set stays as it is, whatever is asked of the store;
* `Store.RefusalLaws`, `Store.refusalLaws_of_reachable` — all of this for the stores that requests
  can make.
-/

universe u

variable {α : Type u} {cmp : α → α → Ordering}

/-! ### What is wrong with a change -/

/-- A range that no set takes: there is none, it has no place to start or no place to end, or its
    lower endpoint exceeds its upper one. -/
def Range.Optional.Faulty : Option (Range α) → Prop
  | none => True
  | some r => r.lower = .top ∨ r.upper = .bottom ∨
      ∃ a b, r.lower.endpoint? = some a ∧ r.upper.endpoint? = some b ∧ r.cmp a b = .gt

/-- A range is not valid exactly when it has one of the faults. -/
theorem Range.Optional.isValid_eq_false_iff (r : Option (Range α)) :
    isValid r = false ↔ Faulty r := by
  cases r with
  | none => exact iff_of_true rfl trivial
  | some r =>
    obtain ⟨⟨lower, upper⟩, o⟩ := r
    have hle : ∀ a b, (o a b).isLE = false ↔ o a b = .gt := fun a b => by cases o a b <;> decide
    cases lower <;> cases upper <;>
      simp [isValid, Range.isValid, Interval.isValid, Faulty, Cut.isTop, Cut.isBottom,
        Cut.endpoint?, hle]

namespace Store

/-- A change with a range that no set takes, or one that reads a set where there is none. -/
def Call.Faulty (st : Store α) : Call α → Prop
  | .add r | .remove r => Range.Optional.Faulty r
  | .addAll other | .removeAll other => other.bind st.view? = none
  | .clear => False

variable {st : Store α} {h k : Handle} {c : Cell α} {q : Call α}

/-- Nothing can be read from a set exactly when there is no such set. -/
theorem intervals?_eq_none_iff (other : Option Handle) :
    st.intervals? other = none ↔ other.bind st.view? = none :=
  Option.map_eq_none_iff

/-- A cell that may be edited refuses the faulty changes and no others: the intervals that a bulk
    change reads are those of a set in normal form, and all of these are valid. -/
theorem refusals_ne_nil_iff [Std.TransCmp cmp] (hst : st.Sound cmp) (q : Call α) :
    (q.edit st).refusals cmp ≠ [] ↔ q.Faulty st := by
  have hrange : ∀ r : Option (Range α), (Edit.add r).refusals cmp ≠ [] ↔
      Range.Optional.Faulty r := by
    intro r
    rw [← Range.Optional.isValid_eq_false_iff]
    cases hvalid : Range.Optional.isValid r <;> simp [Edit.refusals, hvalid]
  have hbulk : ∀ other : Option Handle,
      (Edit.addAll (st.intervals? other)).refusals cmp ≠ [] ↔ other.bind st.view? = none := by
    intro other
    cases hw : other.bind st.view? with
    | none =>
      rw [(intervals?_eq_none_iff other).mpr hw]
      simp [Edit.refusals]
    | some w =>
      -- The intervals of a sound view are all valid.
      obtain ⟨k, -, hk⟩ := Option.bind_eq_some_iff.mp hw
      have hintervals : st.intervals? other = some w.intervals :=
        congrArg (Option.map View.intervals) hw
      rw [hintervals, (hst.view hk).refusals_addAll]
      simp
  cases q with
  | add r => exact hrange r
  | remove r => exact hrange r
  | addAll other => exact hbulk other
  | removeAll other =>
    show (Edit.removeAll (st.intervals? other)).refusals cmp ≠ [] ↔ _
    rw [← Edit.refusals_flip]
    exact hbulk other
  | clear => simp [Call.edit, Edit.refusals, Call.Faulty]

/-- A read-only cell refuses everything. -/
theorem refused_of_isReadOnly (hread : c.isReadOnly) (side : Side) (e : Edit α) :
    (c.applyTo side e).2 ≠ [] := by
  have happly : ∀ e : Edit α, (c.apply e).2 ≠ [] := by
    intro e
    cases e with
    | add r => simp [Cell.apply, Cell.applyRange, hread]
    | remove r => simp [Cell.apply, Cell.applyRange, hread]
    | addAll rs => cases rs <;> simp [Cell.apply, Cell.applyAll, hread]
    | removeAll rs => cases rs <;> simp [Cell.apply, Cell.applyAll, hread]
    | clear => simp [Cell.apply, hread]
  cases side with
  | inside => exact happly e
  | outside => exact happly _

/-- A request is refused exactly when the set is read-only or the request has a fault. -/
theorem perform_refused_iff [Std.TransCmp cmp] (hst : st.Sound cmp) (hc : st.cell? h = some c)
    (q : Call α) : (st.perform (q.on h)).2 ≠ [] ↔ c.isReadOnly ∨ q.Faulty st := by
  rw [perform_on, edit_of_cell? hc]
  cases hread : c.isReadOnly with
  | true => exact iff_of_true (refused_of_isReadOnly hread _ _) (Or.inl rfl)
  | false =>
    rw [Cell.refused_applyTo (hst.cell hc).order hread, refusals_ne_nil_iff hst]
    simp

/-! ### What leaves no trace -/

/-- A request that leaves no trace: the store is what it was, and a walk over one of its sets, at
    whatever place it is, goes on as if nothing had been asked. -/
structure Traceless (st : Store α) (q : Request α) : Prop where
  store : (st.perform q).1 = st
  walks : ∀ (k : Handle) (cursor : Cursor α) (acts : List (Action α)),
    (Scene.mk st cursor).answers k (.ask q :: acts) = (Scene.mk st cursor).answers k acts

/-- A request that leaves the store as it is leaves no trace, not even for walks under way. -/
theorem traceless_of_perform_eq {q : Request α} (h : (st.perform q).1 = st) : st.Traceless q := by
  refine ⟨h, fun k cursor acts => ?_⟩
  have hscene : (Scene.mk st cursor).act k (.ask q) = ⟨st, cursor⟩ := congrArg (Scene.mk · cursor) h
  rw [Scene.answers, hscene]

/-- An edit that does not count as a change leaves the store as it was. -/
theorem edit_eq_self (hc : st.cell? h = some c) {e : Edit α} (hzero : c.changes e = 0) :
    (st.edit h e).1 = st := by
  rw [edit_of_cell? hc, (Cell.after_applyTo c h.side e).eq_of_zero hzero]
  obtain ⟨hlt, hget⟩ := List.getElem?_eq_some_iff.mp hc
  exact congrArg Store.mk (hget ▸ List.set_getElem_self hlt)

/-- What is refused is not counted. -/
theorem changes_of_refused (hfaulty : c.isReadOnly ∨ q.Faulty st) : c.changes (q.edit st) = 0 := by
  unfold Cell.changes
  by_cases hread : c.isReadOnly
  · exact if_pos hread
  rw [if_neg hread]
  -- What is refused for a fault would not change any set.
  have hfaulty := hfaulty.resolve_left hread
  have hrange : ∀ r : Option (Range α), Range.Optional.Faulty r →
      (Edit.add r).changes c.set.cmp = 0 := by
    intro r hr
    rw [← Range.Optional.isValid_eq_false_iff] at hr
    simp [Edit.changes, Range.Optional.isEffective, hr]
  have hbulk : ∀ other : Option Handle, other.bind st.view? = none →
      (Edit.addAll (st.intervals? other)).changes c.set.cmp = 0 := by
    intro other hother
    rw [(intervals?_eq_none_iff other).mpr hother]
    rfl
  cases q with
  | add r => exact hrange r hfaulty
  | remove r => exact hrange r hfaulty
  | addAll other => exact hbulk other hfaulty
  | removeAll other => exact hbulk other hfaulty
  | clear => exact hfaulty.elim

/-- A refused request leaves the store as it was. -/
theorem perform_eq_self_of_refused [Std.TransCmp cmp] (hst : st.Sound cmp)
    (hc : st.cell? h = some c) (hrefused : (st.perform (q.on h)).2 ≠ []) :
    (st.perform (q.on h)).1 = st := by
  rw [perform_on]
  exact edit_eq_self hc (changes_of_refused ((perform_refused_iff hst hc q).mp hrefused))

/-- A range that is empty changes nothing, whether it is refused or not. -/
theorem perform_eq_self_of_isEmpty (hc : st.cell? h = some c) (q : Single) {r : Range α}
    (hr : r.isEmpty) : (st.perform ((q.taking r).on h)).1 = st := by
  have heffective : Range.Optional.isEffective (some r) = false := by
    simp [Range.Optional.isEffective, Range.Optional.isEmpty, hr]
  have hzero : c.changes ((q.taking r).edit st) = 0 := by
    cases q <;> simp [Cell.changes, Single.taking, Call.edit, Edit.changes, heffective]
  rw [perform_on]
  exact edit_eq_self hc hzero

/-! ### Read-only sets -/

/-- No request counts as a change of a read-only cell. -/
theorem changes_of_isReadOnly (hc : st.cell? h = some c) (hread : c.isReadOnly) (q : Request α) :
    q.changes st h = 0 := by
  unfold Request.changes
  rw [hc]
  cases q.edit? st with
  | none => rfl
  | some p => simp [Cell.changes, hread]

/-- A read-only set is the same after all requests. -/
theorem run_cell?_of_isReadOnly (hc : st.cell? h = some c) (hread : c.isReadOnly)
    (qs : List (Request α)) : (st.run qs).cell? h = some c := by
  induction qs generalizing st with
  | nil => exact hc
  | cons q qs ih =>
    obtain ⟨c', hc', hafter⟩ := after_perform hc q
    obtain rfl := hafter.eq_of_zero (changes_of_isReadOnly hc hread q)
    exact ih hc'

/-- Calls through the handles of a read-only set leave the whole store as it is. -/
theorem run_eq_self_of_isReadOnly (hc : st.cell? h = some c) (hread : c.isReadOnly)
    {calls : List (Handle × Call α)} (hcalls : ∀ p ∈ calls, p.1.cell = h.cell) :
    st.run (calls.map fun p => p.2.on p.1) = st := by
  induction calls with
  | nil => rfl
  | cons p calls ih =>
    rw [List.forall_mem_cons] at hcalls
    have hp : st.cell? p.1 = some c := by
      show st.cells[p.1.cell]? = _
      rw [hcalls.1]
      exact hc
    have hsame : (st.perform (p.2.on p.1)).1 = st := by
      rw [perform_on]
      exact edit_eq_self hp (changes_of_refused (Or.inl hread))
    rw [List.map_cons, run, hsame]
    exact ih hcalls.2

/-- A read-only copy of a set, behind all other sets. -/
theorem cell?_freeze (hst : st.Sound cmp) [Std.TransCmp cmp] (hc : st.cell? h = some c) :
    (st.perform (.freeze h)).1.cell? st.fresh =
      some (.frozen ⟨cmp, (c.view h.side).intervals⟩) := by
  have hstore : (st.perform (.freeze h)).1 = (st.push (.frozen (c.view h.side).copy)).1 := by
    simp only [perform, pushFrom, view?_of_cell? hc]
  rw [hstore, cell?_push_fresh, ((hst.cell hc).view h.side).copy_eq]

/-! ### Stores that requests can make -/

/-- What becomes of the changes that are asked of the cell `c` through `h`, and of a read-only copy
    of what `h` shows. -/
structure RefusalLaws (cmp : α → α → Ordering) (st : Store α) (h : Handle) (c : Cell α) : Prop where
  refused_iff : ∀ q : Call α, (st.perform (q.on h)).2 ≠ [] ↔ c.isReadOnly ∨ q.Faulty st
  traceless_of_refused : ∀ q : Call α, (st.perform (q.on h)).2 ≠ [] → st.Traceless (q.on h)
  traceless_of_isEmpty : ∀ (q : Single) (r : Range α), r.isEmpty → st.Traceless ((q.taking r).on h)
  /-- Whatever is asked of the store after a read-only copy was made, the copy has the intervals
      that it was made of. -/
  frozen_run : ∀ qs : List (Request α), ((st.perform (.freeze h)).1.run qs).cell? st.fresh =
    some (.frozen ⟨cmp, (c.view h.side).intervals⟩)
  /-- Calls through the copy, through its outside, or through the outside of that one have no effect
      at all. -/
  frozen_calls : ∀ calls : List (Handle × Call α),
    (∀ p ∈ calls, p.1 ∈ [st.fresh, st.fresh.complement, st.fresh.complement.complement]) →
      (st.perform (.freeze h)).1.run (calls.map fun p => p.2.on p.1) = (st.perform (.freeze h)).1 ∧
        ∀ p ∈ calls, ((st.perform (.freeze h)).1.perform (p.2.on p.1)).2 ≠ []

/-- **What is refused leaves no trace.**  Take any set, also a read-only one, or the outside of one,
    in a store that requests in one order can make, and any change of it.  The change is refused
    exactly when the set is read-only, or the change has a range that is absent, has no place to
    start or to end, or whose endpoints are in the wrong order, or the change is to read a set and
    there is none.  What is refused leaves all sets and their versions as they were, and so does
    adding or removing an empty range; a walk over a set goes on as if nothing had been asked.  A
    read-only copy keeps the intervals of which it was made, whatever is asked of the store
    afterwards. -/
theorem refusalLaws_of_reachable [Std.TransCmp cmp] (hst : st.Reachable cmp)
    (hc : st.cell? h = some c) : RefusalLaws cmp st h c := by
  have hsound := hst.sound
  have hfrozen := cell?_freeze hsound hc
  refine ⟨perform_refused_iff hsound hc, fun q hq => ?_, fun q r hr => ?_, fun qs => ?_,
    fun calls hcalls => ?_⟩
  · exact traceless_of_perform_eq (perform_eq_self_of_refused hsound hc hq)
  · exact traceless_of_perform_eq (perform_eq_self_of_isEmpty hc q hr)
  · exact run_cell?_of_isReadOnly hfrozen rfl qs
  · -- All three handles name the cell of the copy.
    have hcell : ∀ p ∈ calls, p.1.cell = st.fresh.cell := by
      intro p hp
      have hhandle := hcalls p hp
      simp only [List.mem_cons, List.not_mem_nil, or_false] at hhandle
      rcases hhandle with hhandle | hhandle | hhandle <;> rw [hhandle] <;> rfl
    refine ⟨run_eq_self_of_isReadOnly hfrozen rfl hcell, fun p hp => ?_⟩
    have hnames : (st.perform (.freeze h)).1.cell? p.1 = _ :=
      (congrArg _ (hcell p hp)).trans hfrozen
    rw [perform_on, edit_of_cell? hnames]
    exact refused_of_isReadOnly rfl _ _

/-- A set that can be changed and a read-only one; three requests with a fault and one without. -/
theorem sampleRun_refusalLaws :
    ((empty : Store Int).run sampleRun).Reachable compare ∧
      ∃ c d, ((empty : Store Int).run sampleRun).cell? ⟨1, .outside⟩ = some c ∧
        c.isReadOnly = false ∧
        ((empty : Store Int).run sampleRun).cell? ⟨2, .inside⟩ = some d ∧ d.isReadOnly ∧
        RefusalLaws compare ((empty : Store Int).run sampleRun) ⟨1, .outside⟩ c ∧
        RefusalLaws compare ((empty : Store Int).run sampleRun) ⟨2, .inside⟩ d ∧
        [Call.add (some ⟨.closed 9 2, compare⟩), .remove (some ⟨⟨.top, .top⟩, compare⟩),
          .addAll none, .clear].map
            (fun q => (((empty : Store Int).run sampleRun).perform (q.on ⟨1, .outside⟩)).2.length) =
            [1, 1, 1, 0] :=
  have hreach : ((empty : Store Int).run sampleRun).Reachable compare :=
    ⟨sampleRun, readIn_sampleRun, rfl⟩
  ⟨hreach, _, _, rfl, rfl, rfl, rfl, refusalLaws_of_reachable hreach rfl,
    refusalLaws_of_reachable hreach rfl, by decide⟩

end Store

end Allotment
