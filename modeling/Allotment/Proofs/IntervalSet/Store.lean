import Allotment.IntervalSet.Store
import Allotment.Proofs.IntervalSet.Cell

namespace Allotment.Store

/-!
# Runs of a store

Requests to a store make sets, edit them through either side, copy them and freeze them.  Two facts
hold after every run of requests in one order:

* `run_members_disconnected` — all sets are in normal form;
* `run_contains_eq_answers` — what the sets contain follows, value by value, from the requests
  alone.

For the second one, `Request.answer` says what a request does to a list of Booleans, one for each
cell, that stands for the answers to the question whether a certain value is in the cell.
-/

universe u

variable {α : Type u} {cmp : α → α → Ordering}

/-- A request whose ranges and sets are read in the order `cmp`. -/
def Request.ReadIn (cmp : α → α → Ordering) : Request α → Prop
  | .make o rs => o = cmp ∧ ∀ x, some x ∈ rs → x.cmp = cmp
  | .add _ r | .remove _ r => ∀ x, r = some x → x.cmp = cmp
  | .addAll _ _ | .removeAll _ _ | .clear _ | .copy _ | .freeze _ => True

/-- A store whose cells are sound in the order `cmp`. -/
def Sound (cmp : α → α → Ordering) (st : Store α) : Prop :=
  ∀ c ∈ st.cells, c.Sound cmp

variable {st : Store α}

/-- All cells of a sound store are sound. -/
theorem Sound.cell {h : Handle} {c : Cell α} (hst : st.Sound cmp) (hc : st.cell? h = some c) :
    c.Sound cmp :=
  hst c (List.mem_of_getElem? hc)

theorem sound_empty : (empty : Store α).Sound cmp := by
  intro c hc
  cases hc

/-- One more sound cell keeps a store sound. -/
theorem sound_push {c : Cell α} (hst : st.Sound cmp) (hc : c.Sound cmp) :
    (st.push c).1.Sound cmp := by
  intro x hx
  rcases List.mem_append.mp hx with hx | hx
  · exact hst x hx
  · rw [List.mem_singleton] at hx
    rw [hx]
    exact hc

/-! ### Normal form -/

section

variable [Std.TransCmp cmp]

/-- A set made of ranges is sound, also if some of the ranges are refused. -/
theorem sound_ofRanges {rs : List (Option (Range α))} (hrs : ∀ x, some x ∈ rs → x.cmp = cmp) :
    (Cell.ofRanges cmp rs).1.Sound cmp := by
  -- Edit by edit, from the empty set on.
  have hempty : (Cell.ofSet (.empty cmp)).Sound cmp := ⟨rfl, IntervalSet.normal_nil⟩
  refine Cell.applyList_keeps (fun c e he hc => Cell.sound_apply hc ?_) hempty
  obtain ⟨r, hr, rfl⟩ := List.mem_map.mp he
  rintro x rfl
  exact hrs x hr

/-- An edit keeps a store sound, also one of a cell that is not there. -/
theorem sound_edit (hst : st.Sound cmp) (h : Handle) {e : Edit α} (he : e.ReadIn cmp) :
    (st.edit h e).1.Sound cmp := by
  unfold edit
  cases hc : st.cell? h with
  | none => exact hst
  | some c =>
    intro x hx
    rcases List.mem_or_eq_of_mem_set hx with hx | rfl
    · exact hst x hx
    · exact Cell.sound_applyTo (hst.cell hc) h.side he

/-- A copy of a view of a sound cell is sound. -/
theorem sound_pushFrom (hst : st.Sound cmp) (h : Handle) {f : View α → Cell α}
    (hf : ∀ w, (f w).set = w.copy) : (st.pushFrom h f).1.Sound cmp := by
  unfold pushFrom view?
  cases hc : st.cell? h with
  | none => exact hst
  | some c =>
    obtain ⟨rfl, hnormal⟩ := hst.cell hc
    have hw : IntervalSet.Normal (c.view h.side).base.cmp (c.view h.side).base.members := hnormal
    have : Std.TransCmp (c.view h.side).base.cmp := ‹Std.TransCmp c.set.cmp›
    refine sound_push hst ⟨?_, ?_⟩
    · rw [hf, View.copy_eq hw]
      rfl
    · rw [hf, View.copy_eq hw]
      exact View.normal_intervals hw

/-- One request keeps all cells sound. -/
theorem sound_perform (hst : st.Sound cmp) {q : Request α} (hq : q.ReadIn cmp) :
    (st.perform q).1.Sound cmp := by
  cases q with
  | make o rs =>
    obtain ⟨rfl, hrs⟩ := hq
    exact sound_push hst (sound_ofRanges hrs)
  | add h r => exact sound_edit hst h hq
  | remove h r => exact sound_edit hst h hq
  | addAll h other => exact sound_edit hst h trivial
  | removeAll h other => exact sound_edit hst h trivial
  | clear h => exact sound_edit hst h trivial
  | copy h => exact sound_pushFrom hst h fun _ => rfl
  | freeze h => exact sound_pushFrom hst h fun _ => rfl

/-- All requests in one order keep a store sound. -/
theorem sound_run (hst : st.Sound cmp) {qs : List (Request α)} (hqs : ∀ q ∈ qs, q.ReadIn cmp) :
    (st.run qs).Sound cmp := by
  induction qs generalizing st with
  | nil => exact hst
  | cons q qs ih =>
    exact ih (sound_perform hst (hqs q (List.mem_cons_self ..)))
      fun x hx => hqs x (List.mem_cons_of_mem _ hx)

/-- **The members of every set stay in normal form.**  After any run of requests, whether they were
    met or refused, each cell is read in the order of the requests, its members are not empty, they
    are in the strict order of their lower cuts, and each one ends before the next one starts. -/
theorem run_members_disconnected {qs : List (Request α)} (hqs : ∀ q ∈ qs, q.ReadIn cmp) :
    ∀ c ∈ ((empty : Store α).run qs).cells, c.set.cmp = cmp ∧
      (∀ m ∈ c.set.members, Cut.lt cmp m.lower m.upper) ∧
      (c.set.members.Pairwise fun a b => Cut.lt cmp a.lower b.lower) ∧
      c.set.members.Pairwise fun a b => Cut.lt cmp a.upper b.lower := by
  intro c hc
  obtain ⟨horder, hnormal⟩ := sound_run sound_empty hqs c hc
  exact ⟨horder, hnormal.nonempty, hnormal.increasing, hnormal.apart⟩

/-- A run with two names for a set and its outside, and with an absent, an inverted and an unbounded
    range. -/
def sampleRun : List (Request Int) :=
  [.make compare [some ⟨.closed 1 3, compare⟩, none, some ⟨.closed 9 2, compare⟩],
    .add ⟨0, .inside⟩ (some ⟨⟨.above 3, .below 7⟩, compare⟩),
    .remove ⟨0, .inside⟩ (some ⟨.closedOpen 4 5, compare⟩),
    .copy ⟨0, .outside⟩,
    .add ⟨1, .outside⟩ (some ⟨⟨.above 6, .top⟩, compare⟩),
    .freeze ⟨1, .inside⟩,
    .addAll ⟨2, .inside⟩ (some ⟨0, .inside⟩),
    .removeAll ⟨1, .inside⟩ (some ⟨1, .outside⟩),
    .clear ⟨0, .outside⟩]

theorem readIn_sampleRun : ∀ q ∈ sampleRun, q.ReadIn compare := by
  simp [sampleRun, Request.ReadIn]

/-- Requests with ranges that are absent or not valid, copies and a read-only copy. -/
theorem sampleRun_members_disconnected :
    (∀ q ∈ sampleRun, q.ReadIn compare) ∧
      ∀ c ∈ ((empty : Store Int).run sampleRun).cells, c.set.cmp = compare ∧
        (∀ m ∈ c.set.members, Cut.lt compare m.lower m.upper) ∧
        (c.set.members.Pairwise fun a b => Cut.lt compare a.lower b.lower) ∧
        c.set.members.Pairwise fun a b => Cut.lt compare a.upper b.lower :=
  ⟨readIn_sampleRun, run_members_disconnected readIn_sampleRun⟩

end

/-! ### What the sets contain, value by value -/

/-- What a cell says about one value, and whether it can change its mind. -/
structure Answer where
  isReadOnly : Bool
  holds : Bool
deriving DecidableEq

namespace Answer

/-- The answer from one side. -/
def seen (a : Answer) : Side → Bool
  | .inside => a.holds
  | .outside => !a.holds

/-- Changes the answer of one side, unless the cell is read-only. -/
def revise (a : Answer) (side : Side) (f : Bool → Bool) : Answer :=
  if a.isReadOnly then a
  else
    match side with
    | .inside => { a with holds := f a.holds }
    | .outside => { a with holds := !f (!a.holds) }

/-- The answer through a handle, if it names a cell. -/
def at? (as : List Answer) (h : Handle) : Option Bool :=
  as[h.cell]?.map fun a => a.seen h.side

/-- Changes the answer through a handle. -/
def reviseAt (as : List Answer) (h : Handle) (f : Bool → Bool) : List Answer :=
  match as[h.cell]? with
  | none => as
  | some a => as.set h.cell (a.revise h.side f)

/-- A further cell that answers as a handle does. -/
def copyAt (as : List Answer) (h : Handle) (isReadOnly : Bool) : List Answer :=
  match at? as h with
  | none => as
  | some b => as ++ [⟨isReadOnly, b⟩]

end Answer

/-- The pointwise model of a request: what it does to the answers of the cells for the value `v`.  A
    set that is made from no ranges starts with the answer `false`.  Adding turns the answer to
    `true` where the argument contains `v`, removing turns it to `false` there, clearing turns it to
    `false`, and all else leaves it as it was. -/
def Request.answer (v : α) (as : List Answer) : Request α → List Answer
  | .make _ rs => as ++ [⟨false, rs.any fun r => r.any (·.contains v)⟩]
  | .add h r => Answer.reviseAt as h fun b => if r.any (·.contains v) then true else b
  | .remove h r => Answer.reviseAt as h fun b => if r.any (·.contains v) then false else b
  | .addAll h t =>
    Answer.reviseAt as h fun b => if (t.bind (Answer.at? as)) = some true then true else b
  | .removeAll h t =>
    Answer.reviseAt as h fun b => if (t.bind (Answer.at? as)) = some true then false else b
  | .clear h => Answer.reviseAt as h fun _ => false
  | .copy h => Answer.copyAt as h false
  | .freeze h => Answer.copyAt as h true

/-- What the cells of a store say about one value. -/
def answers (st : Store α) (v : α) : List Answer :=
  st.cells.map fun c => ⟨c.isReadOnly, c.set.contains v⟩

/-- A view answers as its side of the cell does. -/
theorem at?_answers (st : Store α) (v : α) (h : Handle) :
    Answer.at? (st.answers v) h = (st.view? h).map fun w => w.contains v := by
  unfold Answer.at? answers view? cell?
  rw [List.getElem?_map, Option.map_map, Option.map_map]
  congr 1

variable [Std.TransCmp cmp]

/-- The answer of one cell after an edit. -/
theorem answer_applyTo {c : Cell α} (hc : c.Sound cmp) (side : Side) {e : Edit α}
    (he : e.ReadIn cmp) (v : α) :
    (⟨(c.applyTo side e).1.isReadOnly, (c.applyTo side e).1.set.contains v⟩ : Answer) =
      Answer.revise ⟨c.isReadOnly, c.set.contains v⟩ side fun b => e.act cmp v b := by
  cases hread : c.isReadOnly with
  | true =>
    rw [Cell.applyTo_of_isReadOnly hread, hread]
    rfl
  | false =>
    have hcontains := Cell.contains_applyTo hc hread side he v
    cases side with
    | inside =>
      have hread' : (c.applyTo .inside e).1.isReadOnly = false := by simp [Cell.applyTo, hread]
      rw [hread']
      exact congrArg (Answer.mk false) hcontains
    | outside =>
      have hread' : (c.applyTo .outside e).1.isReadOnly = false := by simp [Cell.applyTo, hread]
      rw [hread']
      refine congrArg (Answer.mk false) ?_
      -- What is known of the outside is the opposite of what is known of the inside.
      rw [← Bool.not_inj_iff, Bool.not_not]
      exact hcontains

/-- An edit through a handle changes the answers as the edit acts on a single answer. -/
theorem answers_edit (hst : st.Sound cmp) (h : Handle) {e : Edit α} (he : e.ReadIn cmp) (v : α) :
    (st.edit h e).1.answers v = Answer.reviseAt (st.answers v) h fun b => e.act cmp v b := by
  have hat : (st.answers v)[h.cell]? = (st.cell? h).map fun c =>
      ⟨c.isReadOnly, c.set.contains v⟩ := by
    rw [answers, List.getElem?_map]
    rfl
  unfold edit Answer.reviseAt
  rw [hat]
  cases hc : st.cell? h with
  | none => rfl
  | some c =>
    show List.map _ (st.cells.set h.cell _) = (st.answers v).set h.cell _
    rw [List.map_set, answer_applyTo (hst.cell hc) h.side he v]
    rfl

/-- The intervals that a handle names hold a value exactly when its view contains the value. -/
theorem any_intervals?_eq (hst : st.Sound cmp) (t : Option Handle) (v : α) :
    ((st.intervals? t).any fun is => is.any fun i => i.contains cmp v) = true ↔
      t.bind (Answer.at? (st.answers v)) = some true := by
  have hview : t.bind (Answer.at? (st.answers v)) = (t.bind st.view?).map fun w =>
      w.contains v := by
    cases t with
    | none => rfl
    | some h => exact at?_answers st v h
  rw [hview, intervals?]
  cases hw : t.bind st.view? with
  | none => simp
  | some w =>
    -- The view is one of a cell of the store, which is in normal form.
    have hnormal : w.base.cmp = cmp ∧ IntervalSet.Normal cmp w.base.members := by
      obtain ⟨h, -, hh⟩ := Option.bind_eq_some_iff.mp hw
      obtain ⟨c, hc, rfl⟩ := Option.map_eq_some_iff.mp hh
      exact ⟨(hst.cell hc).order, (hst.cell hc).normal⟩
    obtain ⟨rfl, hnormal⟩ := hnormal
    simp only [Option.map_some, Option.any_some, Option.some.injEq]
    rw [View.contains_iff_covers hnormal]
    simp [IntervalSet.Covers, Interval.contains_iff_spans]

/-- A set that is made from ranges contains what one of them contains. -/
theorem contains_ofRanges {rs : List (Option (Range α))} (hrs : ∀ x, some x ∈ rs → x.cmp = cmp)
    (v : α) :
    (Cell.ofRanges cmp rs).1.isReadOnly = false ∧
      (Cell.ofRanges cmp rs).1.set.contains v = rs.any fun r => r.any (·.contains v) := by
  -- Range by range; the value is found where it was or in a range that is added.
  have hlist : ∀ c : Cell α, c.Sound cmp → c.isReadOnly = false →
      (c.applyList (rs.map .add)).1.isReadOnly = false ∧
        (c.applyList (rs.map .add)).1.set.contains v =
          (c.set.contains v || rs.any fun r => r.any (·.contains v)) := by
    induction rs with
    | nil => simp [Cell.applyList]
    | cons r rs ih =>
      intro c hc hread
      have he : Edit.ReadIn cmp (.add r) := by
        rintro x rfl
        exact hrs x (List.mem_cons_self ..)
      obtain ⟨hread', hcontains⟩ := ih (fun x hx => hrs x (List.mem_cons_of_mem _ hx))
        (c.apply (.add r)).1 (Cell.sound_apply hc he) (by simpa using hread)
      refine ⟨hread', hcontains.trans ?_⟩
      rw [Cell.contains_apply hc hread he, List.any_cons, ← Bool.or_assoc]
      rfl
  obtain ⟨hread, hcontains⟩ := hlist (.ofSet (.empty cmp)) ⟨rfl, IntervalSet.normal_nil⟩ rfl
  exact ⟨hread, hcontains.trans (Bool.false_or _)⟩

/-- A copy answers as the view that it is made from. -/
theorem answers_pushFrom (hst : st.Sound cmp) (h : Handle) {f : View α → Cell α} {isReadOnly : Bool}
    (hf : ∀ w, (f w).set = w.copy ∧ (f w).isReadOnly = isReadOnly) (v : α) :
    (st.pushFrom h f).1.answers v = Answer.copyAt (st.answers v) h isReadOnly := by
  unfold pushFrom Answer.copyAt
  rw [at?_answers]
  cases hw : st.view? h with
  | none => rfl
  | some w =>
    obtain ⟨c, hc, rfl⟩ := Option.map_eq_some_iff.mp hw
    obtain ⟨rfl, hnormal⟩ := hst.cell hc
    have : Std.TransCmp (c.view h.side).base.cmp := ‹Std.TransCmp c.set.cmp›
    -- A copy contains what its view contains, whether it can be changed or not.
    have hcopy : (f (c.view h.side)).set.contains v = (c.view h.side).contains v := by
      rw [(hf _).1]
      exact View.contains_copy hnormal v
    show List.map _ (st.cells ++ [_]) = st.answers v ++ [_]
    rw [List.map_append, List.map_singleton, hcopy, (hf _).2]
    rfl

/-- One request does to the answers for each value what the pointwise model says. -/
theorem answers_perform (hst : st.Sound cmp) {q : Request α} (hq : q.ReadIn cmp) (v : α) :
    (st.perform q).1.answers v = q.answer v (st.answers v) := by
  cases q with
  | make o rs =>
    obtain ⟨rfl, hrs⟩ := hq
    obtain ⟨hread, hcontains⟩ := contains_ofRanges hrs v
    show List.map _ (st.cells ++ [(Cell.ofRanges o rs).1]) = st.answers v ++ [_]
    rw [List.map_append, List.map_cons, hread, hcontains]
    rfl
  | add h r =>
    rw [perform, answers_edit hst h (e := .add r) hq, Request.answer]
    congr 1
    funext b
    cases b <;> simp [Edit.act]
  | remove h r =>
    rw [perform, answers_edit hst h (e := .remove r) hq, Request.answer]
    congr 1
    funext b
    cases b <;> simp [Edit.act]
  | addAll h t =>
    rw [perform, answers_edit hst h (e := .addAll _) trivial, Request.answer]
    congr 1
    funext b
    -- The other set is read before the change, also where it is the changed one.
    rw [Bool.eq_iff_iff, Edit.act, Bool.or_eq_true, any_intervals?_eq hst]
    by_cases ht : t.bind (Answer.at? (st.answers v)) = some true <;> simp [ht]
  | removeAll h t =>
    rw [perform, answers_edit hst h (e := .removeAll _) trivial, Request.answer]
    congr 1
    funext b
    rw [Bool.eq_iff_iff, Edit.act, Bool.and_eq_true, Bool.not_eq_true', ← Bool.not_eq_true,
      any_intervals?_eq hst]
    by_cases ht : t.bind (Answer.at? (st.answers v)) = some true <;> simp [ht]
  | clear h => exact answers_edit hst h (e := .clear) trivial v
  | copy h => exact answers_pushFrom hst h (f := fun w => .ofSet w.copy) (fun _ => ⟨rfl, rfl⟩) v
  | freeze h => exact answers_pushFrom hst h (f := fun w => .frozen w.copy) (fun _ => ⟨rfl, rfl⟩) v

/-- The sets and the answers of all requests go in step. -/
theorem answers_run (hst : st.Sound cmp) {qs : List (Request α)} (hqs : ∀ q ∈ qs, q.ReadIn cmp)
    (v : α) : (st.run qs).answers v = qs.foldl (fun as q => q.answer v as) (st.answers v) := by
  induction qs generalizing st with
  | nil => rfl
  | cons q qs ih =>
    have hq := hqs q (List.mem_cons_self ..)
    rw [run, ih (sound_perform hst hq) fun x hx => hqs x (List.mem_cons_of_mem _ hx),
      answers_perform hst hq v, List.foldl_cons]

/-- **What a set contains follows value by value from the requests.**  After any run of requests,
    and through every handle, a view contains `v` exactly when the pointwise model says so. -/
theorem run_contains_eq_answers {qs : List (Request α)} (hqs : ∀ q ∈ qs, q.ReadIn cmp) (v : α)
    (h : Handle) :
    (((empty : Store α).run qs).view? h).map (fun w => w.contains v) =
      Answer.at? (qs.foldl (fun as q => q.answer v as) []) h := by
  rw [← at?_answers, answers_run sound_empty hqs]
  rfl

/-- A value that is in a copy of the sample run, and one that is not. -/
theorem sampleRun_contains_eq_answers :
    (∀ q ∈ sampleRun, q.ReadIn compare) ∧
      (((empty : Store Int).run sampleRun).view? ⟨1, .inside⟩).map (fun w => w.contains 4) =
        some true ∧
      (((empty : Store Int).run sampleRun).view? ⟨1, .inside⟩).map (fun w => w.contains 7) =
        some false :=
  ⟨readIn_sampleRun, (run_contains_eq_answers readIn_sampleRun 4 ⟨1, .inside⟩).trans (by decide),
    (run_contains_eq_answers readIn_sampleRun 7 ⟨1, .inside⟩).trans (by decide)⟩

end Allotment.Store
