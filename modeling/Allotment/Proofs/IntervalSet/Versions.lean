import Mathlib
import Allotment.Proofs.IntervalSet.Complement

namespace Allotment

/-!
# Versions

A cell counts its changes in a 64-bit word, and the count is all that a cursor can tell of what
happened to the cell since it started.  So the count has to move with every change, and the cell
must not move without it:

* `Edit.changes`, `Cell.changes`, `Store.Request.changes` — how often something changes a cell;
* `Cell.After` — a cell after a number of changes; after none it is the cell that it was;
* `Cell.After.eq_of_version` — fewer changes than the word can count do not bring an old version
  back;
* `Store.after_perform`, `Store.after_run` — what requests make of each cell;
* `IntervalSet.Ordered`, `Store.Attainable.ordered` — the members of every set that requests make
  are in order.

The ranges may be read in any order here, also in another one than that of the cell.
-/

universe u

variable {α : Type u}

/-! ### Counting changes -/

/-- Whether a range changes the sets that it is added to or removed from: it is valid and holds
    something, in its own order. -/
def Range.Optional.isEffective (r : Option (Range α)) : Bool :=
  isValid r && !isEmpty r

/-- How often an edit changes a cell that is read in the order `cmp` and may be edited. -/
def Edit.changes (cmp : α → α → Ordering) : Edit α → Nat
  | .add r | .remove r => (Range.Optional.isEffective r).toNat
  | .addAll rs | .removeAll rs => (rs.getD []).countP fun r => Range.Optional.isEffective
      (some ⟨r, cmp⟩)
  | .clear => 1

/-- The edit on the other side makes as many changes. -/
theorem Edit.changes_flip (cmp o : α → α → Ordering) (e : Edit α) :
    (e.flip o).changes cmp = e.changes cmp := by
  cases e with
  | add r => rfl
  | remove r => rfl
  | addAll rs => rfl
  | removeAll rs => rfl
  | clear => rfl

/-- How often an edit changes a cell. -/
def Cell.changes (c : Cell α) (e : Edit α) : Nat :=
  if c.isReadOnly then 0 else e.changes c.set.cmp

namespace Store

/-- The edit that a request asks for, and the handle that it is asked through; a request for a new
    set asks for none. -/
def Request.edit? (st : Store α) : Request α → Option (Handle × Edit α)
  | .add k r => some (k, .add r)
  | .remove k r => some (k, .remove r)
  | .addAll k other => some (k, .addAll (st.intervals? other))
  | .removeAll k other => some (k, .removeAll (st.intervals? other))
  | .clear k => some (k, .clear)
  | .make _ _ | .copy _ | .freeze _ => none

/-- How often a request changes the cell that a handle names, through whichever handle it is
    asked. -/
def Request.changes (st : Store α) (h : Handle) (q : Request α) : Nat :=
  match q.edit? st, st.cell? h with
  | some (k, e), some c => if k.cell = h.cell then c.changes e else 0
  | _, _ => 0

/-- How often some requests change the cell that a handle names. -/
def changes (st : Store α) (h : Handle) : List (Request α) → Nat
  | [] => 0
  | q :: qs => q.changes st h + (st.perform q).1.changes h qs

end Store

/-! ### A cell after some changes -/

/-- The cell `c'` is what the cell `c` has become by `n` changes. -/
structure Cell.After (n : Nat) (c c' : Cell α) : Prop where
  order : c'.set.cmp = c.set.cmp
  isReadOnly : c'.isReadOnly = c.isReadOnly
  version : c'.version = c.version + UInt64.ofNat n
  eq_of_zero : n = 0 → c' = c

namespace Cell

variable {f : IntervalSet α → Interval α → IntervalSet α} {c c' c'' : Cell α} {m n : Nat}

theorem After.rfl : After 0 c c :=
  ⟨Eq.refl _, Eq.refl _, by simp, fun _ => Eq.refl _⟩

/-- Changes one after another add up. -/
theorem After.trans (h : After n c c') (h' : After m c' c'') : After (n + m) c c'' where
  order := h'.order.trans h.order
  isReadOnly := h'.isReadOnly.trans h.isReadOnly
  version := by rw [h'.version, h.version, UInt64.ofNat_add, UInt64.add_assoc]
  eq_of_zero hsum := by
    rw [h'.eq_of_zero (by omega), h.eq_of_zero (by omega)]

/-- A change is one change. -/
theorem after_change {s : IntervalSet α} (hs : s.cmp = c.set.cmp) : After 1 c (c.change s) :=
  ⟨hs, Eq.refl _, Eq.refl _, by simp⟩

/-- Fewer changes than the word can count leave another version, so the cell with the old version is
    the old cell. -/
theorem After.eq_of_version (h : After n c c') (hn : n < 2 ^ 64)
    (hversion : c'.version = c.version) : n = 0 ∧ c' = c := by
  have hzero : UInt64.ofNat n = 0 := UInt64.add_eq_left.mp (h.version.symm.trans hversion)
  rw [UInt64.ofNat_eq_iff_mod_eq_toNat, Nat.mod_eq_of_lt hn] at hzero
  exact ⟨hzero, h.eq_of_zero hzero⟩

/-- A range either changes a cell or leaves it alone, and what it is decides. -/
theorem applyRange_state (r : Option (Range α)) :
    (c.applyRange f r).1 =
      if c.isReadOnly = false ∧ Range.Optional.isEffective r
      then c.change (f c.set (Range.Optional.cuts r))
      else c := by
  unfold applyRange Range.Optional.isEffective
  cases c.isReadOnly <;> cases Range.Optional.isValid r <;> cases Range.Optional.isEmpty r <;> rfl

/-- A range that is valid and not empty makes one change, all others make none. -/
theorem after_applyRange (hf : ∀ s r, (f s r).cmp = s.cmp) (hread : c.isReadOnly = false)
    (r : Option (Range α)) : After (Range.Optional.isEffective r).toNat c (c.applyRange f r).1 := by
  rw [applyRange_state]
  cases heffective : Range.Optional.isEffective r with
  | false =>
    rw [if_neg (by simp)]
    exact After.rfl
  | true =>
    rw [if_pos ⟨hread, Eq.refl _⟩]
    exact after_change (hf _ _)

/-- The intervals are judged in the order of the cell, which stays the same from one to the next. -/
theorem after_applyEach (hf : ∀ s r, (f s r).cmp = s.cmp) (hread : c.isReadOnly = false)
    (rs : List (Interval α)) :
    After (rs.countP fun r => Range.Optional.isEffective (some ⟨r, c.set.cmp⟩)) c
      (c.applyEach f rs).1 := by
  induction rs generalizing c with
  | nil => exact After.rfl
  | cons r rs ih =>
    have hfirst := after_applyRange hf hread (some ⟨r, c.set.cmp⟩)
    have hrest := ih (hfirst.isReadOnly.trans hread)
    rw [hfirst.order] at hrest
    have hcount : (r :: rs).countP (fun r => Range.Optional.isEffective (some ⟨r, c.set.cmp⟩)) =
        (Range.Optional.isEffective (some ⟨r, c.set.cmp⟩)).toNat +
          rs.countP fun r => Range.Optional.isEffective (some ⟨r, c.set.cmp⟩) := by
      rw [List.countP_cons, Nat.add_comm]
      cases Range.Optional.isEffective (some ⟨r, c.set.cmp⟩) <;> simp
    rw [hcount]
    exact hfirst.trans hrest

/-- Each edit makes as many changes as it has effective ranges, and none if the set is read-only. -/
theorem after_apply (c : Cell α) (e : Edit α) : After (c.changes e) c (c.apply e).1 := by
  unfold changes
  by_cases hread : c.isReadOnly
  · rw [if_pos hread, show (c.apply e).1 = c from applyTo_of_isReadOnly hread .inside e]
    exact After.rfl
  rw [if_neg hread]
  rw [Bool.not_eq_true] at hread
  -- Both bulk edits count the effective ranges of the set that they read.
  have hall : ∀ {f : IntervalSet α → Interval α → IntervalSet α}, (∀ s r, (f s r).cmp = s.cmp) →
      ∀ rs, After ((Edit.addAll rs).changes c.set.cmp) c (c.applyAll f rs).1 := by
    intro f hf rs
    cases rs with
    | none => exact After.rfl
    | some rs =>
      simp only [applyAll, hread, Bool.false_eq_true, if_false]
      exact after_applyEach hf hread rs
  cases e with
  | add r => exact after_applyRange acts_insert.order hread r
  | remove r => exact after_applyRange acts_erase.order hread r
  | addAll rs => exact hall acts_insert.order rs
  | removeAll rs => exact hall acts_erase.order rs
  | clear =>
    simp only [apply, hread, Bool.false_eq_true, if_false]
    exact after_change (Eq.refl _)

/-- An edit counts the same from either side. -/
theorem after_applyTo (c : Cell α) (side : Side) (e : Edit α) :
    After (c.changes e) c (c.applyTo side e).1 := by
  cases side with
  | inside => exact after_apply c e
  | outside =>
    have hflip : c.changes (e.flip c.set.cmp) = c.changes e := by
      unfold changes
      rw [Edit.changes_flip]
    exact hflip ▸ after_apply c (e.flip c.set.cmp)

end Cell

namespace Store

variable {st : Store α} {h : Handle} {c : Cell α}

/-- A request for an edit does the edit; one for a new set puts it behind the others, unless there
    is nothing to copy. -/
theorem perform_cases (st : Store α) (q : Request α) :
    (∃ k e, q.edit? st = some (k, e) ∧ st.perform q = st.edit k e) ∨
      q.edit? st = none ∧ ((st.perform q).1 = st ∨ ∃ x, (st.perform q).1 = (st.push x).1) := by
  -- A copy of a set that is not there is no copy at all.
  have hpush : ∀ (k : Handle) (f : View α → Cell α),
      (st.pushFrom k f).1 = st ∨ ∃ x, (st.pushFrom k f).1 = (st.push x).1 := by
    intro k f
    unfold pushFrom
    cases st.view? k with
    | none => exact Or.inl rfl
    | some w => exact Or.inr ⟨f w, rfl⟩
  cases q with
  | make o rs => exact Or.inr ⟨rfl, Or.inr ⟨(Cell.ofRanges o rs).1, rfl⟩⟩
  | add k r => exact Or.inl ⟨k, .add r, rfl, rfl⟩
  | remove k r => exact Or.inl ⟨k, .remove r, rfl, rfl⟩
  | addAll k other => exact Or.inl ⟨k, .addAll (st.intervals? other), rfl, rfl⟩
  | removeAll k other => exact Or.inl ⟨k, .removeAll (st.intervals? other), rfl, rfl⟩
  | clear k => exact Or.inl ⟨k, .clear, rfl, rfl⟩
  | copy k => exact Or.inr ⟨rfl, hpush k _⟩
  | freeze k => exact Or.inr ⟨rfl, hpush k _⟩

/-- One request leaves a cell as many changes later as it counts for. -/
theorem after_perform (hc : st.cell? h = some c) (q : Request α) :
    ∃ c', (st.perform q).1.cell? h = some c' ∧ Cell.After (q.changes st h) c c' := by
  unfold Request.changes
  rcases perform_cases st q with ⟨k, e, hedit, hperform⟩ | ⟨hedit, hperform⟩
  · rw [hperform]
    simp only [hedit, hc]
    by_cases hk : k.cell = h.cell
    · -- The request is about the walked set, maybe from its other side.
      have hkc : st.cell? k = some c := by
        show st.cells[k.cell]? = _
        rw [hk]
        exact hc
      rw [if_pos hk, edit_of_cell? hkc]
      refine ⟨(c.applyTo k.side e).1, ?_, Cell.after_applyTo c k.side e⟩
      show (st.cells.set k.cell _)[h.cell]? = _
      rw [hk]
      exact List.getElem?_set_self (List.getElem?_eq_some_iff.mp hc).1
    · rw [if_neg hk]
      exact ⟨c, (cell?_edit_of_ne (Ne.symm hk) e).trans hc, Cell.After.rfl⟩
  · simp only [hedit]
    rcases hperform with hperform | ⟨x, hperform⟩
    · rw [hperform]
      exact ⟨c, hc, Cell.After.rfl⟩
    · rw [hperform]
      exact ⟨c, cell?_push hc, Cell.After.rfl⟩

/-- The changes of a set by all requests are counted by its version. -/
theorem after_run (hc : st.cell? h = some c) (qs : List (Request α)) :
    ∃ c', (st.run qs).cell? h = some c' ∧ Cell.After (st.changes h qs) c c' := by
  induction qs generalizing st c with
  | nil => exact ⟨c, hc, Cell.After.rfl⟩
  | cons q qs ih =>
    obtain ⟨c', hc', hafter⟩ := after_perform hc q
    obtain ⟨c'', hc'', hafter'⟩ := ih hc'
    exact ⟨c'', hc'', hafter.trans hafter'⟩

end Store

/-! ### Members in order -/

namespace IntervalSet

/-- What a walk relies on: the members are in the strict order of their lower cuts, and none of them
    starts where the line ends. -/
structure Ordered (s : IntervalSet α) : Prop where
  increasing : Increasing s.cmp s.members
  lower_ne_top : ∀ m ∈ s.members, m.lower ≠ .top

variable {s : IntervalSet α} {r : Interval α}

theorem ordered_empty (cmp : α → α → Ordering) : (empty cmp).Ordered :=
  ⟨List.Pairwise.nil, by simp [empty]⟩

variable [Std.TransCmp s.cmp]

/-- Storing an interval that starts before all values end keeps the order. -/
theorem Ordered.store (hs : s.Ordered) (hr : r.lower ≠ .top) : (s.store r).Ordered := by
  refine ⟨by simpa using increasing_store hs.increasing r, ?_⟩
  intro x hx
  rcases (mem_store hs.increasing r x).mp hx with ⟨rfl, -⟩ | ⟨hx, -⟩
  · exact hr
  · exact hs.lower_ne_top x hx

omit [Std.TransCmp s.cmp] in
/-- Dropping members keeps the order. -/
theorem Ordered.dropBetween (hs : s.Ordered) (l u : Cut α) : (s.dropBetween l u).Ordered :=
  ⟨increasing_dropBetween hs.increasing l u,
    fun x hx => hs.lower_ne_top x (List.mem_filter.mp hx).1⟩

/-- So does storing what is left of a member. -/
theorem Ordered.keepAfter (hs : s.Ordered) (r m : Interval α) : (s.keepAfter r m).Ordered := by
  unfold IntervalSet.keepAfter
  split
  · rename_i hk
    refine hs.store ?_
    rintro (htop : r.upper = .top)
    simp [htop, Cut.isBounded, Cut.endpoint?] at hk
  · exact hs

omit [Std.TransCmp s.cmp] in
/-- The member next to a cut is a member. -/
theorem mem_of_getLast?_filter {p : Interval α → Bool} {m : Interval α}
    (h : (s.members.filter p).getLast? = some m) : m ∈ s.members :=
  (List.mem_filter.mp (List.mem_of_getLast? h)).1

/-- Inserting keeps the order, whether the cuts of the interval are crossed or not. -/
theorem Ordered.insert (hs : s.Ordered) (hr : r.lower ≠ .top) : (s.insert r).Ordered := by
  refine Ordered.store (hs.dropBetween _ _) ?_
  -- The grown interval starts where `r` does, or where a member does.
  have hleft : (s.extendLeft r).lower ≠ .top := by
    unfold extendLeft
    split
    · exact hr
    · rename_i m hm
      split
      · exact hs.lower_ne_top m (mem_of_getLast?_filter hm)
      · exact hr
  unfold extendRight
  split
  · exact hleft
  · split
    · exact hleft
    · exact hleft

/-- Erasing keeps the order, whatever the interval is. -/
theorem Ordered.erase (hs : s.Ordered) (r : Interval α) : (s.erase r).Ordered := by
  have hbefore : (s.trimBefore r).Ordered := by
    unfold trimBefore
    split
    · exact hs
    · rename_i m hm
      split
      · -- The part before starts where the member does.
        exact (hs.keepAfter r m).store (hs.lower_ne_top m (mem_of_getLast?_filter hm))
      · exact hs
  have : Std.TransCmp (s.trimBefore r).cmp := by
    rw [trimBefore_cmp]
    infer_instance
  refine Ordered.dropBetween ?_ _ _
  unfold trimAfter
  split
  · exact hbefore
  · exact hbefore.keepAfter r _

omit [Std.TransCmp s.cmp] in
/-- A set made of intervals is in order. -/
theorem ordered_ofMembers {cmp : α → α → Ordering} [Std.TransCmp cmp] {rs : List (Interval α)}
    (hrs : ∀ r ∈ rs, r.lower ≠ .top) : (ofMembers cmp rs).Ordered := by
  have hfold : ∀ ms : List (Interval α), (⟨cmp, ms⟩ : IntervalSet α).Ordered →
      (⟨cmp, rs.foldl (fun ms r => put cmp r ms) ms⟩ : IntervalSet α).Ordered := by
    induction rs with
    | nil => exact fun ms hms => hms
    | cons r rs ih =>
      intro ms hms
      refine ih (fun x hx => hrs x (List.mem_cons_of_mem _ hx)) _
        ⟨increasing_put hms.increasing r, ?_⟩
      intro x hx
      rcases (mem_put hms.increasing r x).mp hx with rfl | ⟨hx, -⟩
      · exact hrs x (List.mem_cons_self ..)
      · exact hms.lower_ne_top x hx
  exact hfold [] (ordered_empty cmp)

omit [Std.TransCmp s.cmp] in
/-- A gap holds something, so it starts before the end of the line. -/
theorem lower_ne_top_of_mem_gapsFrom {cmp : α → α → Ordering} [Std.TransCmp cmp]
    {ms : List (Interval α)} {l : Cut α} {g : Interval α} (hg : g ∈ gapsFrom cmp l ms) :
    g.lower ≠ .top := by
  induction ms generalizing l with
  | nil =>
    obtain ⟨rfl, hlt⟩ := (mem_keepNonempty _ g).mp hg
    exact Cut.ne_top_of_lt hlt
  | cons m ms ih =>
    rcases List.mem_append.mp hg with hg | hg
    · obtain ⟨rfl, hlt⟩ := (mem_keepNonempty _ g).mp hg
      exact Cut.ne_top_of_lt hlt
    · exact ih hg

end IntervalSet

/-- Members in order, if the order of the cell is one. -/
def Cell.Ordered (c : Cell α) : Prop :=
  Std.TransCmp c.set.cmp → c.set.Ordered

namespace Cell

variable {f : IntervalSet α → Interval α → IntervalSet α} {c : Cell α}

/-- A change by one interval that keeps the members in order, if the interval starts somewhere. -/
def KeepsOrder (f : IntervalSet α → Interval α → IntervalSet α) : Prop :=
  ∀ s r, Std.TransCmp s.cmp → s.Ordered → r.lower ≠ .top → (f s r).Ordered

/-- Inserting keeps the order of every set. -/
theorem keepsOrder_insert : KeepsOrder (IntervalSet.insert (α := α)) :=
  fun _ _ _ hs hr => hs.insert hr

/-- Erasing keeps the order of every set. -/
theorem keepsOrder_erase : KeepsOrder (IntervalSet.erase (α := α)) :=
  fun _ _ _ hs _ => hs.erase _

/-- A range that is not refused starts somewhere, whatever order it is read in. -/
theorem lower_ne_top_of_isEffective {r : Option (Range α)} (hr : Range.Optional.isEffective r) :
    (Range.Optional.cuts r).lower ≠ .top := by
  intro htop
  cases r with
  | none => cases hr
  | some r =>
    have hlower : r.lower = .top := htop
    simp [Range.Optional.isEffective, Range.Optional.isValid, Range.isValid, Interval.isValid,
      hlower, Cut.isTop] at hr

/-- An edit with one range keeps the order. -/
theorem Ordered.applyRange (hc : c.Ordered) (horder : ∀ s r, (f s r).cmp = s.cmp)
    (hf : KeepsOrder f) (r : Option (Range α)) : (c.applyRange f r).1.Ordered := by
  rw [applyRange_state]
  split
  · rename_i hr
    intro htrans
    have htrans' : Std.TransCmp c.set.cmp := horder c.set (Range.Optional.cuts r) ▸ htrans
    exact hf _ _ htrans' (hc htrans') (lower_ne_top_of_isEffective hr.2)
  · exact hc

/-- An edit with several intervals keeps the order. -/
theorem Ordered.applyEach (hc : c.Ordered) (horder : ∀ s r, (f s r).cmp = s.cmp) (hf : KeepsOrder f)
    (rs : List (Interval α)) : (c.applyEach f rs).1.Ordered := by
  induction rs generalizing c with
  | nil => exact hc
  | cons r rs ih => exact ih (hc.applyRange horder hf (some ⟨r, c.set.cmp⟩))

/-- All edits keep the order. -/
theorem Ordered.apply (hc : c.Ordered) (e : Edit α) : (c.apply e).1.Ordered := by
  have hall : ∀ {f : IntervalSet α → Interval α → IntervalSet α}, (∀ s r, (f s r).cmp = s.cmp) →
      KeepsOrder f → ∀ rs, (c.applyAll f rs).1.Ordered := by
    intro f horder hf rs
    unfold applyAll
    repeat' split
    · exact hc
    · exact hc
    · exact hc.applyEach horder hf _
  cases e with
  | add r => exact hc.applyRange acts_insert.order keepsOrder_insert r
  | remove r => exact hc.applyRange acts_erase.order keepsOrder_erase r
  | addAll rs => exact hall acts_insert.order keepsOrder_insert rs
  | removeAll rs => exact hall acts_erase.order keepsOrder_erase rs
  | clear =>
    simp only [Cell.apply]
    split
    · exact hc
    · exact fun _ => IntervalSet.ordered_empty _

/-- A new set is in order. -/
theorem ordered_ofRanges (cmp : α → α → Ordering) (rs : List (Option (Range α))) :
    (ofRanges cmp rs).1.Ordered :=
  applyList_keeps (fun _ e _ hc => hc.apply e) fun _ => IntervalSet.ordered_empty cmp

/-- A copy of a set, or of its outside, has its members in order. -/
theorem Ordered.copy (hc : c.Ordered) (side : Side) (htrans : Std.TransCmp (c.view side).copy.cmp) :
    (c.view side).copy.Ordered := by
  cases side with
  | inside => exact hc htrans
  | outside =>
    have : Std.TransCmp (c.view .outside).base.cmp := htrans
    exact IntervalSet.ordered_ofMembers fun g hg => IntervalSet.lower_ne_top_of_mem_gapsFrom hg

end Cell

namespace Store

/-- A store of cells whose members are in order. -/
def Ordered (st : Store α) : Prop :=
  ∀ c ∈ st.cells, c.Ordered

variable {st : Store α}

/-- One more cell in order keeps a store in order. -/
theorem Ordered.push {c : Cell α} (hst : st.Ordered) (hc : c.Ordered) : (st.push c).1.Ordered := by
  intro x hx
  rcases List.mem_append.mp hx with hx | hx
  · exact hst x hx
  · exact List.mem_singleton.mp hx ▸ hc

/-- An edit keeps a store in order, also one of a cell that is not there. -/
theorem Ordered.edit (hst : st.Ordered) (h : Handle) (e : Edit α) : (st.edit h e).1.Ordered := by
  cases hc : st.cell? h with
  | none => simpa only [Store.edit, hc] using hst
  | some c =>
    rw [edit_of_cell? hc]
    intro x hx
    rcases List.mem_or_eq_of_mem_set hx with hx | rfl
    · exact hst x hx
    · have hcell : c.Ordered := hst c (List.mem_of_getElem? hc)
      cases h.side with
      | inside => exact hcell.apply e
      | outside => exact hcell.apply _

/-- A copy keeps a store in order. -/
theorem Ordered.pushFrom (hst : st.Ordered) (h : Handle) {f : View α → Cell α}
    (hf : ∀ w, (f w).set = w.copy) : (st.pushFrom h f).1.Ordered := by
  unfold Store.pushFrom view?
  cases hc : st.cell? h with
  | none => exact hst
  | some c =>
    refine hst.push fun htrans => ?_
    rw [hf] at htrans ⊢
    exact Cell.Ordered.copy (hst c (List.mem_of_getElem? hc)) h.side htrans

/-- Every request keeps the members of all sets in order, whatever the ranges in it are. -/
theorem Ordered.perform (hst : st.Ordered) (q : Request α) : (st.perform q).1.Ordered := by
  cases q with
  | make o rs => exact hst.push (Cell.ordered_ofRanges o rs)
  | add h r => exact hst.edit h _
  | remove h r => exact hst.edit h _
  | addAll h other => exact hst.edit h _
  | removeAll h other => exact hst.edit h _
  | clear h => exact hst.edit h _
  | copy h => exact hst.pushFrom h fun _ => rfl
  | freeze h => exact hst.pushFrom h fun _ => rfl

/-- All requests keep a store in order, in whatever orders they are read. -/
theorem Ordered.run (hst : st.Ordered) (qs : List (Request α)) : (st.run qs).Ordered := by
  induction qs generalizing st with
  | nil => exact hst
  | cons q qs ih => exact ih (hst.perform q)

/-- A store that some requests make, in whatever orders their ranges and sets are read. -/
def Attainable (st : Store α) : Prop :=
  ∃ qs : List (Request α), (empty : Store α).run qs = st

/-- All stores that requests make are in order. -/
theorem Attainable.ordered (hst : st.Attainable) : st.Ordered := by
  obtain ⟨qs, rfl⟩ := hst
  refine Ordered.run ?_ qs
  intro c hc
  cases hc

end Store

end Allotment
