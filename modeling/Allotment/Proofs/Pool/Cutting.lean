import Allotment.Proofs.IntervalSet.Cell
import Allotment.Proofs.Pool.Ledger

namespace Allotment.Ledger

/-!
# Cutting a range out of a ledger

Each claim that overlaps the range is replaced by its parts on either side of the range, with its
labels, and no other claim is changed.

* `pieces` — the parts of a claim;
* `remainders_eq` — what is left of the set of one range is the parts;
* `cutOne_spec`, `each_cutOne_spec` — one claim after another is replaced by its parts;
* `Held` — whether a claim with certain labels spans a cut;
* `cutOut`, `cut_eq_flatMap` — what becomes of each claim, and all of these in the places of the
  claims;
* `cut_spec` — nothing fails, and what is held outside of the range stays.
-/

universe u

variable {α : Type u} {cmp : α → α → Ordering} {l : Ledger α} {r : Range α} {xs ys : List (Claim α)}

variable [Std.TransCmp cmp]

/-- The part of a claim before a range. -/
def partBefore (r : Range α) (e : Claim α) : List (Claim α) :=
  if Cut.lt r.cmp e.range.lower r.lower then [⟨⟨⟨e.range.lower, r.lower⟩, r.cmp⟩, e.labels⟩] else []

/-- The part of a claim after a range. -/
def partAfter (r : Range α) (e : Claim α) : List (Claim α) :=
  if Cut.lt r.cmp r.upper e.range.upper then [⟨⟨⟨r.upper, e.range.upper⟩, r.cmp⟩, e.labels⟩] else []

/-- The parts of a claim on either side of a range. -/
def pieces (r : Range α) (e : Claim α) : List (Claim α) :=
  partBefore r e ++ partAfter r e

omit [Std.TransCmp cmp] in
/-- There is a part before the range if the claim starts first. -/
theorem mem_partBefore {e x : Claim α} : x ∈ partBefore r e ↔
    Cut.lt r.cmp e.range.lower r.lower ∧ x = ⟨⟨⟨e.range.lower, r.lower⟩, r.cmp⟩, e.labels⟩ := by
  unfold partBefore
  split <;> simp_all

omit [Std.TransCmp cmp] in
/-- There is a part after the range if the claim ends last. -/
theorem mem_partAfter {e x : Claim α} : x ∈ partAfter r e ↔
    Cut.lt r.cmp r.upper e.range.upper ∧ x = ⟨⟨⟨r.upper, e.range.upper⟩, r.cmp⟩, e.labels⟩ := by
  unfold partAfter
  split <;> simp_all

/-- What is left of a claim outside a range that overlaps it are the two parts, and no set refuses
    its part of the work. -/
theorem remainders_eq (d : Domain α) {e : Claim α} (he : e.range.cmp = cmp)
    (hopen : e.range.toInterval.HalfOpen) (hne : Cut.lt cmp e.range.lower e.range.upper)
    (hr : r.cmp = cmp) (hropen : r.toInterval.HalfOpen) (hrne : Cut.lt cmp r.lower r.upper)
    (hover : Cut.lt cmp e.range.lower r.upper ∧ Cut.lt cmp r.lower e.range.upper) :
    remainders d r e = .ok (pieces r e) := by
  subst hr
  -- The set with the one range of the claim, and then that set without the range that is cut out.
  have hcell := Cell.ofRanges_singleton he hne
  generalize hwhole : (⟨⟨r.cmp, [e.range.toInterval]⟩, 1, false⟩ : Cell α) = whole at hcell
  have hrest : whole.apply (.remove (some r)) = (whole.change (whole.set.erase r.toInterval), []) :=
    Cell.applyRange_of_lt (hwhole ▸ rfl) rfl hrne
  have hmembers : (whole.change (whole.set.erase r.toInterval)).set.members =
      (if Cut.lt r.cmp e.range.lower r.lower then [⟨e.range.lower, r.lower⟩] else []) ++
        (if Cut.lt r.cmp r.upper e.range.upper then [⟨r.upper, e.range.upper⟩] else []) := by
    subst hwhole
    exact IntervalSet.erase_singleton hrne hover.1 hover.2
  -- Both parts are half open, so the canonical form leaves them as they are.
  have hleft : Range.canonical d ⟨⟨e.range.lower, r.lower⟩, r.cmp⟩ =
      ⟨⟨e.range.lower, r.lower⟩, r.cmp⟩ :=
    congrArg (Range.mk · r.cmp) (Interval.canonical_eq_self ⟨hopen.1, hropen.1⟩)
  have hright : Range.canonical d ⟨⟨r.upper, e.range.upper⟩, r.cmp⟩ =
      ⟨⟨r.upper, e.range.upper⟩, r.cmp⟩ :=
    congrArg (Range.mk · r.cmp) (Interval.canonical_eq_self ⟨hropen.2, hopen.2⟩)
  unfold remainders
  simp only [hcell, Attempt.ofRefusals_nil, Attempt.andThen_done, hrest, Attempt.toExcept_done,
    Except.map, hmembers, List.map_append]
  unfold pieces partBefore partAfter
  congr 2
  · split <;> simp [hleft]
  · split <;> simp [hright]

omit [Std.TransCmp cmp] in
/-- The parts of a claim are read in the order of the range, and they keep the labels. -/
theorem mem_pieces {e x : Claim α} (hx : x ∈ pieces r e) :
    x.range.cmp = r.cmp ∧ x.labels = e.labels ∧
      (Cut.lt r.cmp e.range.lower r.lower ∧ x.range.toInterval = ⟨e.range.lower, r.lower⟩ ∨
        Cut.lt r.cmp r.upper e.range.upper ∧ x.range.toInterval = ⟨r.upper, e.range.upper⟩) := by
  rcases List.mem_append.mp hx with hx | hx
  · obtain ⟨hlt, rfl⟩ := mem_partBefore.mp hx
    exact ⟨rfl, rfl, Or.inl ⟨hlt, rfl⟩⟩
  · obtain ⟨hlt, rfl⟩ := mem_partAfter.mp hx
    exact ⟨rfl, rfl, Or.inr ⟨hlt, rfl⟩⟩

/-- The parts of a claim are tidy: the range lies between them. -/
theorem tidy_pieces {e : Claim α} (he : e.range.toInterval.HalfOpen)
    (hropen : r.toInterval.HalfOpen) (hrne : Cut.lt cmp r.lower r.upper) (hr : r.cmp = cmp) :
    Tidy cmp (pieces r e) := by
  subst hr
  refine tidy_append.mpr ⟨?_, ?_, ?_⟩
  · unfold partBefore
    split
    · next hlt => exact tidy_singleton.mpr ⟨⟨he.1, hropen.1⟩, hlt⟩
    · exact tidy_nil
  · unfold partAfter
    split
    · next hlt => exact tidy_singleton.mpr ⟨⟨hropen.2, he.2⟩, hlt⟩
    · exact tidy_nil
  · -- The whole range lies between the two parts.
    intro x hx y hy
    obtain ⟨-, rfl⟩ := mem_partBefore.mp hx
    obtain ⟨-, rfl⟩ := mem_partAfter.mp hy
    show Cut.le r.cmp r.lower r.upper
    grind

/-- The parts of a claim that overlaps a range lie within the claim. -/
theorem encloses_of_mem_pieces {e x : Claim α} (hr : r.cmp = cmp)
    (hover : Cut.lt cmp e.range.lower r.upper ∧ Cut.lt cmp r.lower e.range.upper)
    (hx : x ∈ pieces r e) : e.range.toInterval.encloses cmp x.range.toInterval := by
  subst hr
  rw [Interval.encloses_iff]
  rcases (mem_pieces hx).2.2 with ⟨hlt, h⟩ | ⟨hlt, h⟩
  · rw [h]
    grind
  · rw [h]
    grind

/-- The parts of a claim are apart from the range. -/
theorem apart_of_mem_pieces {e x : Claim α} (hx : x ∈ pieces r e) :
    Interval.Apart cmp x.range.toInterval r.toInterval := by
  rcases (mem_pieces hx).2.2 with ⟨-, h⟩ | ⟨-, h⟩
  · rw [h]
    exact Or.inl (Cut.le_refl _)
  · rw [h]
    exact Or.inr (Cut.le_refl _)

/-- Claims in which one that overlaps a range is replaced by its parts. -/
theorem Tidy.replace {e : Claim α} (ht : Tidy cmp (xs ++ e :: ys)) (hr : r.cmp = cmp)
    (hropen : r.toInterval.HalfOpen) (hrne : Cut.lt cmp r.lower r.upper)
    (hover : Cut.lt cmp e.range.lower r.upper ∧ Cut.lt cmp r.lower e.range.upper) :
    Tidy cmp (xs ++ pieces r e ++ ys) := by
  obtain ⟨hxs, hcons, hxy⟩ := tidy_append.mp ht
  obtain ⟨⟨heopen, -⟩, hys, hey⟩ := tidy_cons.mp hcons
  rw [List.append_assoc]
  refine tidy_append.mpr ⟨hxs, tidy_append.mpr ⟨tidy_pieces heopen hropen hrne hr, hys, ?_⟩, ?_⟩
  · -- The parts lie within the claim, and this lies before the claims after it.
    intro x hx y hy
    have hx' := (Interval.encloses_iff _ _).mp (encloses_of_mem_pieces hr hover hx)
    have hy' := hey y hy
    grind
  · intro x hx y hy
    -- In the same way they lie after the claims before it.
    rcases List.mem_append.mp hy with hy | hy
    · have hy' := (Interval.encloses_iff _ _).mp (encloses_of_mem_pieces hr hover hy)
      have hx' := hxy x hx e (List.mem_cons_self ..)
      grind
    · exact hxy x hx y (List.mem_cons_of_mem _ hy)

/-- Putting in at most one claim, between claims that start before it and claims that start after
    it. -/
theorem claims_foldl_put (hl : l.Kept cmp) (hclaims : l.claims = xs ++ ys) (zs : List (Claim α))
    (hlen : zs.length ≤ 1) (hzs : ∀ z ∈ zs, z.range.cmp = cmp ∧
      (∀ x ∈ xs, Cut.lt cmp x.range.lower z.range.lower) ∧
      ∀ y ∈ ys, Cut.lt cmp z.range.lower y.range.lower) :
    (zs.foldl put l).claims = xs ++ zs ++ ys ∧ (zs.foldl put l).Kept cmp := by
  match zs with
  | [] => exact ⟨by simpa using hclaims, hl⟩
  | [z] =>
    obtain ⟨hz, hbefore, hafter⟩ := hzs z (List.mem_singleton_self z)
    have hat : SplitAt cmp z.range.lower l.claims xs [] ys :=
      ⟨by simpa using hclaims, hbefore, by simp, by simp, hafter⟩
    obtain ⟨hput, hkept⟩ := claims_put hl hz hat
    exact ⟨by simpa using hput, hkept⟩
  | _ :: _ :: _ => simp at hlen

/-- Cutting one claim replaces it by its parts, in its place. -/
theorem cutOne_spec (d : Domain α) (hl : l.Kept cmp) (ht : Tidy cmp l.claims) (hr : r.cmp = cmp)
    (hropen : r.toInterval.HalfOpen) (hrne : Cut.lt cmp r.lower r.upper) {e : Claim α}
    (hclaims : l.claims = xs ++ e :: ys)
    (hover : Cut.lt cmp e.range.lower r.upper ∧ Cut.lt cmp r.lower e.range.upper) :
    ∃ l', cutOne d r l e = .done l' () ∧ l'.Kept cmp ∧ l'.claims = xs ++ pieces r e ++ ys := by
  have he : e ∈ l.claims := by simp [hclaims]
  have hecmp := hl.order e he
  obtain ⟨-, hcons, hxe⟩ := List.pairwise_append.mp (hclaims ▸ ht.increasing)
  have hxe' : ∀ x ∈ xs, Cut.lt cmp x.range.lower e.range.lower :=
    fun x hx => hxe x hx e (List.mem_cons_self ..)
  have hey := (List.pairwise_cons.mp hcons).1
  have hey' := (List.pairwise_cons.mp (List.pairwise_append.mp (hclaims ▸ ht.apart)).2.1).1
  have hat : SplitAt cmp e.range.lower l.claims xs [e] ys :=
    ⟨by simp [hclaims], hxe', by simp; grind, by simp, hey⟩
  obtain ⟨hdrop, hkept⟩ := claims_drop hl hecmp hat
  subst hr
  -- The part before the range comes in the place of the claim, and the other one after it.
  obtain ⟨hclaims₁, hkept₁⟩ := claims_foldl_put hkept hdrop (partBefore r e)
    (by unfold partBefore; split <;> simp) (by
      intro z hz
      obtain ⟨-, rfl⟩ := mem_partBefore.mp hz
      exact ⟨rfl, hxe', hey⟩)
  obtain ⟨hclaims₂, hkept₂⟩ := claims_foldl_put hkept₁ hclaims₁ (partAfter r e)
    (by unfold partAfter; split <;> simp) (by
      intro z hz
      obtain ⟨hlt, rfl⟩ := mem_partAfter.mp hz
      refine ⟨rfl, ?_, ?_⟩
      · intro x hx
        rcases List.mem_append.mp hx with hx | hx
        · have hx' := hxe' x hx
          grind
        · obtain ⟨-, rfl⟩ := mem_partBefore.mp hx
          exact hover.1
      · intro y hy
        have hy' := hey' y hy
        grind)
  refine ⟨(pieces r e).foldl put (l.drop e), ?_, ?_, ?_⟩
  · unfold cutOne
    rw [remainders_eq d hecmp (ht.halfOpen e he) (ht.nonempty e he) rfl hropen hrne hover]
  · rw [pieces, List.foldl_append]
    exact hkept₂
  · rw [pieces, List.foldl_append, hclaims₂, List.append_assoc xs]

/-- Cutting one claim after another, each of which overlaps the range. -/
theorem each_cutOne_spec (d : Domain α) (hr : r.cmp = cmp) (hropen : r.toInterval.HalfOpen)
    (hrne : Cut.lt cmp r.lower r.upper) {os : List (Claim α)} (hl : l.Kept cmp)
    (ht : Tidy cmp l.claims) (hclaims : l.claims = xs ++ os ++ ys)
    (hover : ∀ e ∈ os, Cut.lt cmp e.range.lower r.upper ∧ Cut.lt cmp r.lower e.range.upper) :
    ∃ l', Attempt.each (cutOne d r) l os = .done l' () ∧ l'.Kept cmp ∧ Tidy cmp l'.claims ∧
      l'.claims = xs ++ os.flatMap (pieces r) ++ ys := by
  induction os generalizing l xs with
  | nil => exact ⟨l, rfl, hl, ht, hclaims⟩
  | cons e os ih =>
    -- The parts of `e` join the claims before the ones that are still to be cut.
    have hclaims' : l.claims = xs ++ e :: (os ++ ys) := by simpa using hclaims
    have hover' := hover e (List.mem_cons_self ..)
    obtain ⟨l₁, hcut, hkept, hclaims₁⟩ := cutOne_spec d hl ht hr hropen hrne hclaims' hover'
    have ht₁ : Tidy cmp l₁.claims := hclaims₁ ▸ (hclaims' ▸ ht).replace hr hropen hrne hover'
    obtain ⟨l₂, hcut₂, hkept₂, ht₂, hclaims₂⟩ :=
      ih hkept ht₁ (by rw [hclaims₁, List.append_assoc _ os]) fun x hx =>
        hover x (List.mem_cons_of_mem _ hx)
    refine ⟨l₂, ?_, hkept₂, ht₂, ?_⟩
    · rw [Attempt.each, hcut, Attempt.andThen_done, hcut₂]
    · rw [hclaims₂, List.flatMap_cons, List.append_assoc xs]

/-- Whether some claim with the given labels spans a cut. -/
def Held (cmp : α → α → Ordering) (cs : List (Claim α)) (c : Cut α) (labels : Labels) : Prop :=
  ∃ e ∈ cs, e.range.toInterval.Spans cmp c ∧ e.labels = labels

/-- The parts of a claim span what the claim spans and the range does not. -/
theorem held_pieces {e : Claim α} (hr : r.cmp = cmp)
    (hover : Cut.lt cmp e.range.lower r.upper ∧ Cut.lt cmp r.lower e.range.upper) (c : Cut α)
    (labels : Labels) :
    Held cmp (pieces r e) c labels ↔
      (e.range.toInterval.Spans cmp c ∧ e.labels = labels) ∧ ¬ r.toInterval.Spans cmp c := by
  subst hr
  unfold Held Interval.Spans
  constructor
  · rintro ⟨x, hx, hspan, hlabels⟩
    obtain ⟨-, hlabels', ⟨hlt, h⟩ | ⟨hlt, h⟩⟩ := mem_pieces hx
    · rw [h] at hspan
      exact ⟨⟨by grind, hlabels'.symm.trans hlabels⟩, by grind⟩
    · rw [h] at hspan
      exact ⟨⟨by grind, hlabels'.symm.trans hlabels⟩, by grind⟩
  · rintro ⟨⟨hspan, hlabels⟩, hout⟩
    -- A cut outside of the range is before its start or at or after its end.
    by_cases hbelow : Cut.lt r.cmp c r.lower
    · refine ⟨_, List.mem_append_left _ (mem_partBefore.mpr ⟨by grind, rfl⟩), ⟨hspan.1, hbelow⟩,
        hlabels⟩
    · have hafter : Cut.le r.cmp r.upper c := by grind
      refine ⟨_, List.mem_append_right _ (mem_partAfter.mpr ⟨by grind, rfl⟩), ⟨hafter, hspan.2⟩,
        hlabels⟩

/-- What claims hold that are apart from a range lies outside of it. -/
theorem not_spans_of_held {cs : List (Claim α)} {c : Cut α} {labels : Labels}
    (hcs : ∀ x ∈ cs, Interval.Apart cmp x.range.toInterval r.toInterval)
    (h : Held cmp cs c labels) : ¬ r.toInterval.Spans cmp c := by
  obtain ⟨x, hx, hspan, -⟩ := h
  exact (hcs x hx).not_spans hspan

/-! ### All claims -/

/-- What becomes of a claim when a range is cut out. -/
def cutOut (r : Range α) (e : Claim α) : List (Claim α) :=
  if e.range.overlaps r then pieces r e else [e]

omit [Std.TransCmp cmp] in
/-- Of a claim with values of the range the parts outside remain. -/
theorem cutOut_of_overlaps {e : Claim α} (h : e.range.overlaps r) : cutOut r e = pieces r e :=
  if_pos h

omit [Std.TransCmp cmp] in
/-- A claim without values of the range remains as it is. -/
theorem cutOut_of_not_overlaps {e : Claim α} (h : ¬ e.range.overlaps r) : cutOut r e = [e] :=
  if_neg h

/-- A claim is replaced by its parts if it overlaps the range, and it is left as it is if it is
    apart from it. -/
theorem cutOut_cases {e : Claim α} (he : e.range.cmp = cmp)
    (hne : Cut.lt cmp e.range.lower e.range.upper) (hrne : Cut.lt cmp r.lower r.upper) :
    cutOut r e = pieces r e ∧
        (Cut.lt cmp e.range.lower r.upper ∧ Cut.lt cmp r.lower e.range.upper) ∨
      cutOut r e = [e] ∧ Interval.Apart cmp e.range.toInterval r.toInterval := by
  have hiff := overlaps_iff he hne hrne
  by_cases hover : e.range.overlaps r
  · exact Or.inl ⟨cutOut_of_overlaps hover, hiff.mp hover⟩
  · refine Or.inr ⟨cutOut_of_not_overlaps hover, ?_⟩
    have hcuts := mt hiff.mpr hover
    unfold Interval.Apart
    grind

/-- What is left of a claim holds what the claim holds outside of the range. -/
theorem held_cutOut {e : Claim α} (he : e.range.cmp = cmp)
    (hne : Cut.lt cmp e.range.lower e.range.upper) (hr : r.cmp = cmp)
    (hrne : Cut.lt cmp r.lower r.upper) (c : Cut α) (labels : Labels) :
    Held cmp (cutOut r e) c labels ↔
      (e.range.toInterval.Spans cmp c ∧ e.labels = labels) ∧ ¬ r.toInterval.Spans cmp c := by
  rcases cutOut_cases he hne hrne with ⟨heq, hover⟩ | ⟨heq, hapart⟩
  · rw [heq]
    exact held_pieces hr hover c labels
  · rw [heq]
    simp only [Held, List.mem_singleton, exists_eq_left]
    exact (and_iff_left_of_imp fun h => hapart.not_spans h.1).symm

omit [Std.TransCmp cmp] in
/-- What is held after each claim is replaced by some others. -/
theorem held_flatMap {cs : List (Claim α)} {f : Claim α → List (Claim α)} {c : Cut α}
    {labels : Labels} : Held cmp (cs.flatMap f) c labels ↔ ∃ e ∈ cs, Held cmp (f e) c labels := by
  simp only [Held, List.mem_flatMap]
  constructor
  · rintro ⟨x, ⟨e, he, hx⟩, h⟩
    exact ⟨e, he, x, hx, h⟩
  · rintro ⟨e, he, x, hx, h⟩
    exact ⟨x, ⟨e, he, hx⟩, h⟩

/-- A cut does not fail, and what it leaves of the claims stands in their places. -/
theorem cut_eq_flatMap (d : Domain α) (hl : l.Kept cmp) (ht : Tidy cmp l.claims) (hr : r.cmp = cmp)
    (hropen : r.toInterval.HalfOpen) (hrne : Cut.lt cmp r.lower r.upper) :
    ∃ l', l.cut d r = .done l' () ∧ l'.Kept cmp ∧ Tidy cmp l'.claims ∧
      l'.claims = l.claims.flatMap (cutOut r) := by
  obtain ⟨pre, post, hclaims, hpre, hover, hpost⟩ := overlapping_spec hl ht hr hrne
  obtain ⟨l', hcut, hkept, ht', hclaims'⟩ := each_cutOne_spec d hr hropen hrne hl ht hclaims hover
  have hiff : ∀ e ∈ l.claims, e.range.overlaps r ↔
      Cut.lt cmp e.range.lower r.upper ∧ Cut.lt cmp r.lower e.range.upper :=
    fun e he => overlaps_iff (hl.order e he) (ht.nonempty e he) hrne
  rw [hclaims] at hiff
  simp only [List.forall_mem_append] at hiff
  -- The claims on either side of those that overlap are not touched.
  have hpre' : ∀ e ∈ pre, cutOut r e = [e] := by
    intro e he
    have hbefore := hpre e he
    exact cutOut_of_not_overlaps (mt (hiff.1.1 e he).mp (by grind))
  have hover' : ∀ e ∈ l.overlapping r, cutOut r e = pieces r e :=
    fun e he => cutOut_of_overlaps ((hiff.1.2 e he).mpr (hover e he))
  have hpost' : ∀ e ∈ post, cutOut r e = [e] := by
    intro e he
    have hafter := hpost e he
    exact cutOut_of_not_overlaps (mt (hiff.2 e he).mp (by grind))
  refine ⟨l', hcut, hkept, ht', ?_⟩
  rw [hclaims', hclaims]
  simp only [List.flatMap_def, List.map_append, List.flatten_append, List.map_congr_left hpre',
    List.map_congr_left hover', List.map_congr_left hpost']
  simp only [← List.flatMap_def, List.flatMap_singleton']

/-- **A cut takes the values of the range out of the claims**, and no others; it does not fail.  All
    that is left of the claims is apart from the range, within a claim that was there. -/
theorem cut_spec (d : Domain α) (hl : l.Kept cmp) (ht : Tidy cmp l.claims) (hr : r.cmp = cmp)
    (hropen : r.toInterval.HalfOpen) (hrne : Cut.lt cmp r.lower r.upper) :
    ∃ l', l.cut d r = .done l' () ∧ l'.Kept cmp ∧ Tidy cmp l'.claims ∧
      (∀ x ∈ l'.claims, Interval.Apart cmp x.range.toInterval r.toInterval) ∧
      (∀ x ∈ l'.claims, ∃ e ∈ l.claims, e.range.toInterval.encloses cmp x.range.toInterval) ∧
      ∀ c labels, Held cmp l'.claims c labels ↔
        Held cmp l.claims c labels ∧ ¬ r.toInterval.Spans cmp c := by
  obtain ⟨l', hcut, hkept, ht', hclaims⟩ := cut_eq_flatMap d hl ht hr hropen hrne
  -- Each claim that remains is a claim apart from the range, or a part of a claim that was cut.
  have hcases := fun e he => cutOut_cases (hl.order e he) (ht.nonempty e he) hrne
  refine ⟨l', hcut, hkept, ht', ?_, ?_, ?_⟩
  · intro x hx
    rw [hclaims] at hx
    obtain ⟨e, he, hx⟩ := List.mem_flatMap.mp hx
    rcases hcases e he with ⟨heq, -⟩ | ⟨heq, hapart⟩
    · exact apart_of_mem_pieces (heq ▸ hx)
    · rw [heq, List.mem_singleton] at hx
      rwa [hx]
  · intro x hx
    rw [hclaims] at hx
    obtain ⟨e, he, hx⟩ := List.mem_flatMap.mp hx
    refine ⟨e, he, ?_⟩
    rcases hcases e he with ⟨heq, hover⟩ | ⟨heq, -⟩
    · exact encloses_of_mem_pieces hr hover (heq ▸ hx)
    · rw [heq, List.mem_singleton] at hx
      rw [hx]
      exact Interval.encloses_refl _
  · intro c labels
    rw [hclaims, held_flatMap]
    constructor
    · rintro ⟨e, he, h⟩
      obtain ⟨hheld, hout⟩ := (held_cutOut (hl.order e he) (ht.nonempty e he) hr hrne c labels).mp h
      exact ⟨⟨e, he, hheld⟩, hout⟩
    · rintro ⟨⟨e, he, hheld⟩, hout⟩
      exact ⟨e, he, (held_cutOut (hl.order e he) (ht.nonempty e he) hr hrne c labels).mpr
        ⟨hheld, hout⟩⟩

end Allotment.Ledger
