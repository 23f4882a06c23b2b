import Allotment.IntervalSet.Cell
import Allotment.Proofs.IntervalSet.Editing
import Allotment.Proofs.IntervalSet.Gaps

namespace Allotment

/-!
# Edits of a cell

An edit leaves a cell in normal form, whatever the ranges in it are, as long as they are read in the
order of the cell.  What it does to the answer for a single value is said by a function on Booleans.

* `Cell.Acts` — what inserting and erasing have in common, so that both are followed through an edit
  once;
* `Cell.Sound` — a cell in normal form, in a given order;
* `Edit.act` — what an edit does to the answer for a value;
* `Cell.sound_applyTo`, `Cell.contains_applyTo` — edits of a cell from either side;
* `Edit.refusals`, `Cell.refused_applyTo` — what a cell refuses depends on the edit alone.
-/

universe u

variable {α : Type u} {cmp : α → α → Ordering}

/-- A cell in normal form that is read in the order `cmp`. -/
structure Cell.Sound (cmp : α → α → Ordering) (c : Cell α) : Prop where
  order : c.set.cmp = cmp
  normal : IntervalSet.Normal cmp c.set.members

/-- An edit whose range, if it has one, is read in the order `cmp`. -/
def Edit.ReadIn (cmp : α → α → Ordering) : Edit α → Prop
  | .add r | .remove r => ∀ x, r = some x → x.cmp = cmp
  | .addAll _ | .removeAll _ | .clear => True

/-- A range that is there is read in its order.  Where a range may be absent, it is asked for in
    this form. -/
theorem Range.Optional.readIn_some {r : Range α} (hr : r.cmp = cmp) :
    ∀ x, some r = some x → x.cmp = cmp := by
  rintro x ⟨⟩
  exact hr

/-- What an edit does to the answer for a value: adding turns it on and removing turns it off where
    the argument holds the value, and nothing else changes it. -/
def Edit.act (cmp : α → α → Ordering) (v : α) (b : Bool) : Edit α → Bool
  | .add r => b || r.any (·.contains v)
  | .remove r => b && !r.any (·.contains v)
  | .addAll rs => b || rs.any (·.any fun i => i.contains cmp v)
  | .removeAll rs => b && !rs.any (·.any fun i => i.contains cmp v)
  | .clear => false

/-- Seen from the other side, an edit and its flip do the same. -/
theorem Edit.act_flip (v : α) (b : Bool) (e : Edit α) :
    (e.flip cmp).act cmp v b = !e.act cmp v (!b) := by
  cases e <;> simp [Edit.flip, Edit.act, Range.contains, Interval.contains, Interval.all,
    Cut.precedes]

/-- The edit on the other side reads the same ranges. -/
theorem Edit.ReadIn.flip {e : Edit α} (he : e.ReadIn cmp) : (e.flip cmp).ReadIn cmp := by
  cases e with
  | add r => exact he
  | remove r => exact he
  | addAll rs => trivial
  | removeAll rs => trivial
  | clear => exact Range.Optional.readIn_some rfl

namespace Cell

/-! ### What inserting and erasing have in common -/

/-- A change of a set by one interval that keeps the order and the normal form.  It combines what
    the set covered with what the interval spans, cut by cut, by the connective `op`. -/
structure Acts (f : IntervalSet α → Interval α → IntervalSet α) (op : Prop → Prop → Prop) :
    Prop where
  order : ∀ s r, (f s r).cmp = s.cmp
  normal : ∀ s r, Std.TransCmp s.cmp → IntervalSet.Normal s.cmp s.members →
    Cut.lt s.cmp r.lower r.upper → IntervalSet.Normal s.cmp (f s r).members
  covers : ∀ s r, Std.TransCmp s.cmp → IntervalSet.Normal s.cmp s.members →
    Cut.lt s.cmp r.lower r.upper → ∀ c, IntervalSet.Covers s.cmp (f s r).members c ↔
      op (IntervalSet.Covers s.cmp s.members c) (r.Spans s.cmp c)
  op_false : ∀ p, op p False ↔ p
  op_or : ∀ p q q', op (op p q) q' ↔ op p (q ∨ q')

/-- Inserting adds what the interval spans. -/
theorem acts_insert : Acts (IntervalSet.insert (α := α)) Or where
  order _ _ := IntervalSet.insert_cmp
  normal _ _ _ hs hr := IntervalSet.normal_insert hs hr
  covers _ _ _ hs hr := IntervalSet.covers_insert hs hr
  op_false p := by simp
  op_or _ _ _ := or_assoc

/-- Erasing takes away what the interval spans. -/
theorem acts_erase : Acts (IntervalSet.erase (α := α)) fun p q => p ∧ ¬ q where
  order _ _ := IntervalSet.erase_cmp
  normal _ _ _ hs hr := IntervalSet.normal_erase hs hr
  covers _ _ _ hs hr := IntervalSet.covers_erase hs hr
  op_false p := by simp
  op_or p q q' := by rw [not_or, and_assoc]

/-! ### One range, several intervals -/

variable {f : IntervalSet α → Interval α → IntervalSet α} {op : Prop → Prop → Prop} {c : Cell α}

/-- No edit makes a cell read-only or lifts that. -/
@[simp] theorem applyRange_isReadOnly (r : Option (Range α)) :
    (c.applyRange f r).1.isReadOnly = c.isReadOnly := by
  unfold applyRange
  repeat' split
  all_goals rfl

/-- Intervals one after another do not make a set read-only. -/
@[simp] theorem applyEach_isReadOnly (rs : List (Interval α)) :
    (c.applyEach f rs).1.isReadOnly = c.isReadOnly := by
  induction rs generalizing c with
  | nil => rfl
  | cons r rs ih =>
    show ((c.applyRange f _).1.applyEach f rs).1.isReadOnly = _
    rw [ih, applyRange_isReadOnly]

variable [Std.TransCmp cmp]

/-- A range that holds something is valid, so the change is made. -/
theorem applyRange_of_lt (hread : c.isReadOnly = false) {r : Range α} (hr : r.cmp = cmp)
    (hlt : Cut.lt cmp r.lower r.upper) :
    c.applyRange f (some r) = (c.change (f c.set r.toInterval), []) := by
  have hvalid : Range.Optional.isValid (some r) := by
    show r.toInterval.isValid r.cmp
    rw [hr]
    exact Interval.isValid_of_lt hlt
  have hempty : Range.Optional.isEmpty (some r) = false := by
    show r.toInterval.isEmpty r.cmp = false
    rw [hr, Interval.isEmpty_eq_false_iff]
    exact hlt
  simp only [applyRange, hread, hvalid, hempty, Bool.not_true, Bool.false_eq_true, if_false]
  rfl

/-- A set that is made from one range that holds something. -/
theorem ofRanges_singleton {r : Range α} (hr : r.cmp = cmp) (hlt : Cut.lt cmp r.lower r.upper) :
    ofRanges cmp [some r] = (⟨⟨cmp, [r.toInterval]⟩, 1, false⟩, []) := by
  simp only [ofRanges, List.map_cons, List.map_nil, applyList, apply]
  rw [applyRange_of_lt rfl hr hlt]
  show ((⟨(IntervalSet.empty cmp).insert r.toInterval, 1, false⟩ : Cell α), _) = _
  rw [IntervalSet.insert_empty hlt]
  rfl

/-- A change with one range keeps a cell sound.  A range that is refused is one that spans
    nothing. -/
theorem applyRange_spec (hf : Acts f op) (hc : c.Sound cmp) {r : Option (Range α)}
    (hr : ∀ x, r = some x → x.cmp = cmp) :
    (c.applyRange f r).1.Sound cmp ∧ (c.isReadOnly = false → ∀ p,
      IntervalSet.Covers cmp (c.applyRange f r).1.set.members p ↔
        op (IntervalSet.Covers cmp c.set.members p) ((Range.Optional.cuts r).Spans cmp p)) := by
  obtain ⟨rfl, hnormal⟩ := hc
  by_cases hread : c.isReadOnly
  · have hsame : (c.applyRange f r).1 = c := by simp [applyRange, hread]
    rw [hsame]
    exact ⟨⟨rfl, hnormal⟩, fun h => absurd hread (by simp [h])⟩
  rw [Bool.not_eq_true] at hread
  by_cases hlt : Cut.lt c.set.cmp (Range.Optional.cuts r).lower (Range.Optional.cuts r).upper
  · obtain ⟨x, rfl⟩ : ∃ x, r = some x := by
      cases r with
      | none => simp [Range.Optional.cuts, Cut.lt, Cut.compare, Ordering.isLT] at hlt
      | some x => exact ⟨x, rfl⟩
    rw [applyRange_of_lt hread (hr x rfl) hlt]
    exact ⟨⟨hf.order _ _, hf.normal _ _ inferInstance hnormal hlt⟩,
      fun _ => hf.covers _ _ inferInstance hnormal hlt⟩
  · -- Otherwise the range is refused or ignored, and there is nothing to be done.
    have hspan : ∀ p, ¬ (Range.Optional.cuts r).Spans c.set.cmp p := by
      intro p
      unfold Interval.Spans
      grind
    have hempty : Range.Optional.isEmpty r = true := by
      cases r with
      | none => rfl
      | some x =>
        show x.toInterval.isEmpty x.cmp = true
        rw [hr x rfl, ← Bool.not_eq_false, Interval.isEmpty_eq_false_iff]
        exact hlt
    have hsame : ∀ p, IntervalSet.Covers c.set.cmp c.set.members p ↔
        op (IntervalSet.Covers c.set.cmp c.set.members p)
          ((Range.Optional.cuts r).Spans c.set.cmp p) := by
      intro p
      rw [eq_false (hspan p), hf.op_false]
    have hunchanged : (c.applyRange f r).1 = c := by
      simp only [applyRange, hread, hempty, Bool.false_eq_true, if_false, if_true]
      split <;> rfl
    rw [hunchanged]
    exact ⟨⟨rfl, hnormal⟩, fun _ => hsame⟩

/-- A change with several intervals combines with what they cover together. -/
theorem applyEach_spec (hf : Acts f op) (hc : c.Sound cmp) (rs : List (Interval α)) :
    (c.applyEach f rs).1.Sound cmp ∧ (c.isReadOnly = false → ∀ p,
      IntervalSet.Covers cmp (c.applyEach f rs).1.set.members p ↔
        op (IntervalSet.Covers cmp c.set.members p) (IntervalSet.Covers cmp rs p)) := by
  induction rs generalizing c with
  | nil =>
    refine ⟨hc, fun _ p => ?_⟩
    rw [eq_false (IntervalSet.not_covers_nil p), hf.op_false]
    exact Iff.rfl
  | cons r rs ih =>
    obtain ⟨hsound, hcovers⟩ := applyRange_spec hf hc (r := some ⟨r, c.set.cmp⟩)
      (Range.Optional.readIn_some hc.order)
    -- What is left is done with the set as the first interval leaves it.
    obtain ⟨hsound', hcovers'⟩ := ih hsound
    refine ⟨hsound', fun hread p => ?_⟩
    show IntervalSet.Covers cmp ((c.applyRange f _).1.applyEach f rs).1.set.members p ↔ _
    rw [hcovers' (by simpa using hread) p, hcovers hread p, hf.op_or, IntervalSet.covers_cons]
    exact Iff.rfl

/-! ### Edits -/

/-- No edit makes a set read-only, or lets it be changed again. -/
@[simp] theorem apply_isReadOnly (e : Edit α) : (c.apply e).1.isReadOnly = c.isReadOnly := by
  cases e with
  | add r => exact applyRange_isReadOnly r
  | remove r => exact applyRange_isReadOnly r
  | addAll rs =>
    simp only [apply, applyAll]
    repeat' split
    all_goals simp
  | removeAll rs =>
    simp only [apply, applyAll]
    repeat' split
    all_goals simp
  | clear =>
    simp only [apply]
    split <;> simp [change]

/-- Nor does an edit of its outside. -/
@[simp] theorem applyTo_isReadOnly (side : Side) (e : Edit α) :
    (c.applyTo side e).1.isReadOnly = c.isReadOnly := by
  cases side with
  | inside => exact apply_isReadOnly e
  | outside => exact apply_isReadOnly _

/-- A change with the intervals of another set, if there is one. -/
theorem applyAll_spec (hf : Acts f op) (hc : c.Sound cmp) (rs : Option (List (Interval α))) :
    (c.applyAll f rs).1.Sound cmp ∧ (c.isReadOnly = false → ∀ p,
      IntervalSet.Covers cmp (c.applyAll f rs).1.set.members p ↔
        op (IntervalSet.Covers cmp c.set.members p) (IntervalSet.Covers cmp (rs.getD []) p)) := by
  cases rs with
  | none =>
    refine ⟨hc, fun _ p => ?_⟩
    rw [Option.getD_none, eq_false (IntervalSet.not_covers_nil p), hf.op_false]
    exact Iff.rfl
  | some rs =>
    simp only [applyAll, Option.getD_some]
    by_cases hread : c.isReadOnly
    · rw [if_pos hread]
      exact ⟨hc, fun h => absurd hread (by simp [h])⟩
    · rw [if_neg hread]
      exact applyEach_spec hf hc rs

/-- Every edit keeps a cell sound, also one that is refused. -/
theorem sound_apply (hc : c.Sound cmp) {e : Edit α} (he : e.ReadIn cmp) :
    (c.apply e).1.Sound cmp := by
  cases e with
  | add r => exact (applyRange_spec acts_insert hc he).1
  | remove r => exact (applyRange_spec acts_erase hc he).1
  | addAll rs => exact (applyAll_spec acts_insert hc rs).1
  | removeAll rs => exact (applyAll_spec acts_erase hc rs).1
  | clear =>
    simp only [apply]
    split
    · exact hc
    · exact ⟨hc.order, IntervalSet.normal_nil⟩

/-- An edit on either side keeps a set sound. -/
theorem sound_applyTo (hc : c.Sound cmp) (side : Side) {e : Edit α} (he : e.ReadIn cmp) :
    (c.applyTo side e).1.Sound cmp := by
  cases side with
  | inside => exact sound_apply hc he
  | outside =>
    obtain rfl := hc.order
    exact sound_apply hc he.flip

omit [Std.TransCmp cmp] in
/-- What each of some edits keeps, all of them keep, one after another. -/
theorem applyList_keeps {I : Cell α → Prop} {es : List (Edit α)}
    (hkeeps : ∀ c e, e ∈ es → I c → I (c.apply e).1) (hc : I c) : I (c.applyList es).1 := by
  induction es generalizing c with
  | nil => exact hc
  | cons e es ih =>
    exact ih (fun c x hx => hkeeps c x (List.mem_cons_of_mem _ hx))
      (hkeeps c e (List.mem_cons_self ..) hc)

/-- A sound cell contains a value exactly when its members cover the cut below it. -/
theorem Sound.contains_iff (hc : c.Sound cmp) (v : α) :
    c.set.contains v ↔ IntervalSet.Covers cmp c.set.members (.below v) := by
  obtain ⟨rfl, hnormal⟩ := hc
  exact IntervalSet.contains_iff_covers hnormal v

/-- Given intervals cover the cut below a value when one of them contains the value; an absent list
    covers nothing. -/
theorem covers_getD_iff (rs : Option (List (Interval α))) (v : α) :
    IntervalSet.Covers cmp (rs.getD []) (.below v) ↔ rs.any (·.any fun i => i.contains cmp v) := by
  cases rs with
  | none => simp [IntervalSet.not_covers_nil]
  | some rs => simp [IntervalSet.Covers, Interval.contains_iff_spans]

/-- A given range spans the cut below a value when it contains the value; an absent one spans
    none. -/
theorem spans_cuts_iff {r : Option (Range α)} (hr : ∀ x, r = some x → x.cmp = cmp) (v : α) :
    (Range.Optional.cuts r).Spans cmp (.below v) ↔ r.any (·.contains v) := by
  rw [← Interval.contains_iff_spans]
  cases r with
  | none => simp [Range.Optional.cuts, Interval.contains, Cut.precedes]
  | some x => simp [Range.Optional.cuts, Range.contains, hr x rfl]

/-- An edit of a cell that may be edited changes the answer for each value as `Edit.act` says. -/
theorem contains_apply (hc : c.Sound cmp) (hread : c.isReadOnly = false) {e : Edit α}
    (he : e.ReadIn cmp) (v : α) :
    (c.apply e).1.set.contains v = e.act cmp v (c.set.contains v) := by
  rw [Bool.eq_iff_iff, (sound_apply hc he).contains_iff]
  cases e with
  | add r =>
    rw [apply, (applyRange_spec acts_insert hc he).2 hread, ← hc.contains_iff, spans_cuts_iff he]
    simp [Edit.act]
  | remove r =>
    rw [apply, (applyRange_spec acts_erase hc he).2 hread, ← hc.contains_iff, spans_cuts_iff he]
    simp [Edit.act]
  | addAll rs =>
    rw [apply, (applyAll_spec acts_insert hc rs).2 hread, ← hc.contains_iff, covers_getD_iff]
    simp [Edit.act]
  | removeAll rs =>
    rw [apply, (applyAll_spec acts_erase hc rs).2 hread, ← hc.contains_iff, covers_getD_iff]
    simp [Edit.act]
  | clear =>
    simp [apply, hread, change, IntervalSet.empty, IntervalSet.not_covers_nil, Edit.act]

/-- The same from either side: what a side answers after an edit through it. -/
theorem contains_applyTo (hc : c.Sound cmp) (hread : c.isReadOnly = false) (side : Side)
    {e : Edit α} (he : e.ReadIn cmp) (v : α) :
    ((c.applyTo side e).1.view side).contains v = e.act cmp v ((c.view side).contains v) := by
  cases side with
  | inside => exact contains_apply hc hread he v
  | outside =>
    obtain rfl := hc.order
    show (!(c.apply (e.flip c.set.cmp)).1.set.contains v) = e.act c.set.cmp v (!c.set.contains v)
    rw [contains_apply hc hread he.flip, Edit.act_flip, Bool.not_not]

/-- A read-only cell stays as it is. -/
theorem applyTo_of_isReadOnly (hread : c.isReadOnly) (side : Side) (e : Edit α) :
    (c.applyTo side e).1 = c := by
  have happly : ∀ e : Edit α, (c.apply e).1 = c := by
    intro e
    cases e <;> simp [apply, applyRange, applyAll, hread]
    all_goals split <;> rfl
  cases side with
  | inside => exact happly e
  | outside => exact happly _

end Cell

/-! ### What is refused -/

/-- What a cell that may be edited refuses of an edit: ranges that are not valid in their own order,
    intervals that are not valid in the order of the cell, and absent sets. -/
def Edit.refusals (cmp : α → α → Ordering) : Edit α → List (SetError α)
  | .add r | .remove r => if Range.Optional.isValid r then [] else [.invalidRange r]
  | .addAll none | .removeAll none => [.absentSet]
  | .addAll (some rs) | .removeAll (some rs) =>
    (rs.filter fun r => !r.isValid cmp).map fun r => .invalidRange (some ⟨r, cmp⟩)
  | .clear => []

/-- The edit on the other side is refused for the same reasons. -/
theorem Edit.refusals_flip (e : Edit α) : (e.flip cmp).refusals cmp = e.refusals cmp := by
  cases e with
  | add r => rfl
  | remove r => rfl
  | addAll rs => cases rs <;> rfl
  | removeAll rs => cases rs <;> rfl
  | clear => rfl

namespace Cell

variable {f : IntervalSet α → Interval α → IntervalSet α} {c : Cell α}

/-- A set that can be changed refuses the ranges that are not valid. -/
theorem refused_applyRange (hread : c.isReadOnly = false) (r : Option (Range α)) :
    (c.applyRange f r).2 = if Range.Optional.isValid r then [] else [.invalidRange r] := by
  unfold applyRange
  rw [hread]
  cases Range.Optional.isValid r <;> cases Range.Optional.isEmpty r <;> rfl

/-- The order of a set does not change. -/
theorem applyRange_cmp (hf : ∀ s r, (f s r).cmp = s.cmp) (r : Option (Range α)) :
    (c.applyRange f r).1.set.cmp = c.set.cmp := by
  unfold applyRange
  repeat' split
  all_goals first | rfl | exact hf _ _

/-- The intervals are judged one by one in the order of the cell, which no change touches. -/
theorem refused_applyEach (hf : ∀ s r, (f s r).cmp = s.cmp) (hc : c.set.cmp = cmp)
    (hread : c.isReadOnly = false) (rs : List (Interval α)) :
    (c.applyEach f rs).2 = (rs.filter fun r => !r.isValid cmp).map fun r =>
      .invalidRange (some ⟨r, cmp⟩) := by
  induction rs generalizing c with
  | nil => rfl
  | cons r rs ih =>
    have hrest := ih (c := (c.applyRange f (some ⟨r, c.set.cmp⟩)).1)
      ((applyRange_cmp hf _).trans hc) (by simpa using hread)
    show (c.applyRange f (some ⟨r, c.set.cmp⟩)).2 ++ ((c.applyRange f _).1.applyEach f rs).2 = _
    rw [hrest, refused_applyRange hread, hc]
    show (if r.isValid cmp = true then [] else _) ++ _ = _
    cases hvalid : r.isValid cmp <;> simp [hvalid]

/-- What is refused does not depend on the members of the cell. -/
theorem refused_apply (hc : c.set.cmp = cmp) (hread : c.isReadOnly = false) (e : Edit α) :
    (c.apply e).2 = e.refusals cmp := by
  -- The two bulk edits differ in what is done with each interval, not in what is refused.
  have hall : ∀ {f : IntervalSet α → Interval α → IntervalSet α}, (∀ s r, (f s r).cmp = s.cmp) →
      ∀ rs, (c.applyAll f rs).2 = (Edit.addAll rs).refusals cmp := by
    intro f hf rs
    cases rs with
    | none => rfl
    | some rs =>
      simp only [applyAll, hread, Bool.false_eq_true, if_false]
      exact refused_applyEach hf hc hread rs
  cases e with
  | add r => exact refused_applyRange hread r
  | remove r => exact refused_applyRange hread r
  | addAll rs => exact hall acts_insert.order rs
  | removeAll rs =>
    rw [← Edit.refusals_flip]
    exact hall acts_erase.order rs
  | clear => simp [apply, hread, Edit.refusals]

/-- An edit is refused on both sides for the same reasons. -/
theorem refused_applyTo (hc : c.set.cmp = cmp) (hread : c.isReadOnly = false) (side : Side)
    (e : Edit α) : (c.applyTo side e).2 = e.refusals cmp := by
  cases side with
  | inside => exact refused_apply hc hread e
  | outside =>
    obtain rfl := hc
    exact (refused_apply rfl hread _).trans (Edit.refusals_flip e)

end Cell

end Allotment
