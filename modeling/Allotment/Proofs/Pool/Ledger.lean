import Allotment.Pool.Ledger
import Allotment.Proofs.Domain
import Allotment.Proofs.Pool.ShapeReading

namespace Allotment.Ledger

/-!
# Ledgers of one order

When all ranges of a ledger are read in one order, its claims are sorted and the shape has no
effect: a claim is put between the claims before it and those after it, and a search finds what a
look at all claims finds.

* `Kept` — a ledger of one order whose shape fits its claims;
* `claims_put`, `claims_drop`, `lastUpTo?_eq`, `startingAfter_eq` — the operations on a list that is
  split at a lower cut;
* `Tidy` — claims that are not empty, half open, and in order without an overlap;
* `put_spec` — a claim that overlaps no other stands beside the others;
* `overlapping_spec`, `mem_overlapping_iff` — the claims that overlap a range, which are next to
  each other;
* `lastUpTo?_filter_eq_some` — the last claim up to a value is the only one that can contain it.
-/

universe u

variable {α : Type u} {cmp : α → α → Ordering} {l : Ledger α} {r : Range α}

/-- All claims are read in the order `cmp`, and the shape groups as many elements as there are
    claims. -/
structure Kept (cmp : α → α → Ordering) (l : Ledger α) : Prop where
  order : ∀ c ∈ l.claims, c.range.cmp = cmp
  grouped : l.shape.Grouped
  size : l.shape.size = l.claims.length

theorem kept_empty : (empty : Ledger α).Kept cmp where
  order _ hc := by cases hc
  grouped := .leaf 0
  size := Shape.size_leaf 0

/-- The claims `cs`, split at a cut: `xs` start before it, `ms` at it, and `ys` after it. -/
structure SplitAt (cmp : α → α → Ordering) (c : Cut α) (cs xs ms ys : List (Claim α)) : Prop where
  eq : cs = xs ++ ms ++ ys
  before : ∀ x ∈ xs, Cut.lt cmp x.range.lower c
  here : ∀ x ∈ ms, Cut.same cmp x.range.lower c
  length_le : ms.length ≤ 1
  after : ∀ x ∈ ys, Cut.lt cmp c x.range.lower

variable {c : Cut α} {cs xs ms ys : List (Claim α)}

section

variable [Std.TransCmp cmp]

/-- Claims in the order of their lower cuts can be split at every cut. -/
theorem exists_splitAt (h : cs.Pairwise fun a b => Cut.lt cmp a.range.lower b.range.lower)
    (c : Cut α) : ∃ xs ms ys, SplitAt cmp c cs xs ms ys := by
  induction cs with
  | nil => exact ⟨[], [], [], rfl, by simp, by simp, by simp, by simp⟩
  | cons e cs ih =>
    obtain ⟨he, htail⟩ := List.pairwise_cons.mp h
    by_cases hlt : Cut.lt cmp e.range.lower c
    · -- The claim starts before the cut, and the others are split by induction.
      obtain ⟨xs, ms, ys, rfl, hbefore, hhere, hlen, hafter⟩ := ih htail
      refine ⟨e :: xs, ms, ys, rfl, ?_, hhere, hlen, hafter⟩
      simpa [hlt] using hbefore
    · by_cases hsame : Cut.same cmp e.range.lower c
      · -- It starts at the cut, so it is the one claim that does and the others follow.
        refine ⟨[], [e], cs, rfl, by simp, by simpa using hsame, by simp, ?_⟩
        intro x hx
        have hx' := he x hx
        grind
      · -- It starts after the cut, and so do all the others.
        refine ⟨[], [], e :: cs, rfl, by simp, by simp, by simp, ?_⟩
        intro x hx
        rcases List.mem_cons.mp hx with rfl | hx
        · grind
        · have hx' := he x hx
          grind

/-- The probe for the lower cut of a range finds the borders of the split at that cut. -/
theorem splits_probe (hl : ∀ x ∈ cs, x.range.cmp = cmp) (hr : r.cmp = cmp)
    (h : SplitAt cmp r.lower cs xs ms ys) :
    (probe r).Splits cs xs.length (xs.length + ms.length) := by
  obtain ⟨rfl, hbefore, hhere, hlen, hafter⟩ := h
  -- A position tells which of the three parts an element is from.
  have hget : ∀ (i : Nat) x, (xs ++ ms ++ ys)[i]? = some x →
      x ∈ xs ∧ i < xs.length ∨
        x ∈ ms ∧ xs.length ≤ i ∧ i < xs.length + ms.length ∨
        x ∈ ys ∧ xs.length + ms.length ≤ i := by
    intro i x hx
    rw [List.getElem?_append, List.length_append] at hx
    split at hx
    · rw [List.getElem?_append] at hx
      split at hx
      · exact Or.inl ⟨List.mem_of_getElem? hx, by assumption⟩
      · exact Or.inr (Or.inl ⟨List.mem_of_getElem? hx, by omega, by omega⟩)
    · exact Or.inr (Or.inr ⟨List.mem_of_getElem? hx, by omega⟩)
  refine ⟨by omega, by omega, by simp, ?_, ?_⟩
  · intro i x hx
    have hprobe : (probe r).isAfter x = Cut.lt cmp x.range.lower r.lower := by
      rw [← hl x (List.mem_of_getElem? hx)]
      rfl
    rw [hprobe]
    rcases hget i x hx with ⟨hx', hi⟩ | ⟨hx', hi, -⟩ | ⟨hx', hi⟩
    · exact iff_of_true (hbefore x hx') hi
    · have hsame := hhere x hx'
      exact iff_of_false (by grind) (by omega)
    · have hlt := hafter x hx'
      exact iff_of_false (by grind) (by omega)
  · intro i x hx
    have hprobe : (probe r).isBefore x = Cut.lt cmp r.lower x.range.lower := by
      rw [← hr]
      rfl
    rw [hprobe]
    rcases hget i x hx with ⟨hx', hi⟩ | ⟨hx', -, hi⟩ | ⟨hx', hi⟩
    · have hlt := hbefore x hx'
      exact iff_of_false (by grind) (by omega)
    · have hsame := hhere x hx'
      exact iff_of_false (by grind) (by omega)
    · exact iff_of_true (hafter x hx') hi

omit [Std.TransCmp cmp] in
/-- The lengths of the parts say where a list is split. -/
theorem SplitAt.take_drop (h : SplitAt cmp c cs xs ms ys) :
    cs.take xs.length = xs ∧ cs.drop (xs.length + ms.length) = ys := by
  rw [h.eq]
  constructor
  · rw [List.append_assoc, List.take_left]
  · rw [List.drop_left' (by simp)]

omit [Std.TransCmp cmp] in
/-- Other claims may take the place of those at a cut, if the tree changes its size by as much as
    the list. -/
theorem Kept.replace (hl : l.Kept cmp) (h : SplitAt cmp c l.claims xs ms ys)
    (es : List (Claim α)) (hes : ∀ x ∈ es, x.range.cmp = cmp) {l' : Ledger α}
    (hclaims : l'.claims = xs ++ es ++ ys) (hgrouped : l'.shape.Grouped)
    (hsize : l'.shape.size + ms.length = l.shape.size + es.length) : l'.Kept cmp := by
  refine ⟨?_, hgrouped, ?_⟩
  · intro x hx
    rw [hclaims, List.mem_append, List.mem_append] at hx
    rcases hx with (hx | hx) | hx
    · exact hl.order x (by rw [h.eq]; simp [hx])
    · exact hes x hx
    · exact hl.order x (by rw [h.eq]; simp [hx])
  · have hlen := congrArg List.length h.eq
    have hsize' := hl.size
    rw [hclaims]
    simp only [List.length_append] at hlen ⊢
    omega

/-- A claim is put between the claims before it and those after it; one at its lower cut gives
    way. -/
theorem claims_put (hl : l.Kept cmp) {e : Claim α} (he : e.range.cmp = cmp)
    (h : SplitAt cmp e.range.lower l.claims xs ms ys) :
    (l.put e).claims = xs ++ e :: ys ∧ (l.put e).Kept cmp := by
  have hsplits := splits_probe hl.order he h
  obtain ⟨hspot, hsize, hgrouped⟩ := Shape.inserted_insert hsplits hl.grouped hl.size
  -- The tree finds the borders of the claims that start here, and these are replaced.
  have hclaims : (l.put e).claims = xs ++ e :: ys := by
    show l.claims.take (l.shape.insert _ _).1.start ++
      e :: l.claims.drop (l.shape.insert _ _).1.stop = _
    rw [hspot, Spot.start_ofBorders, Spot.stop_ofBorders hsplits.le hsplits.le_succ, h.take_drop.1,
      h.take_drop.2]
  refine ⟨hclaims, hl.replace h [e] (by simpa using he) (by simp [hclaims]) hgrouped ?_⟩
  show (l.shape.insert _ _).2.size + ms.length = l.shape.size + 1
  omega

/-- A claim that is dropped leaves the claims before it and those after it. -/
theorem claims_drop (hl : l.Kept cmp) {e : Claim α} (he : e.range.cmp = cmp)
    (h : SplitAt cmp e.range.lower l.claims xs ms ys) :
    (l.drop e).claims = xs ++ ys ∧ (l.drop e).Kept cmp := by
  have hsplits := splits_probe hl.order he h
  obtain ⟨hspot, hsize, hgrouped⟩ := Shape.removed_remove hsplits hl.grouped hl.size
  -- The tree finds the borders of the claims that start here, and these are left out.
  have hclaims : (l.drop e).claims = xs ++ ys := by
    show l.claims.take (l.shape.remove _ _).1.start ++ l.claims.drop (l.shape.remove _ _).1.stop = _
    rw [hspot, Spot.start_ofBorders, Spot.stop_ofBorders hsplits.le hsplits.le_succ, h.take_drop.1,
      h.take_drop.2]
  refine ⟨hclaims, hl.replace h [] (by simp) (by simp [hclaims]) hgrouped ?_⟩
  show (l.shape.remove _ _).2.size + ms.length = l.shape.size
  omega

/-- The last claim up to a cut is the last one of those at it or before it. -/
theorem lastUpTo?_eq (hl : l.Kept cmp) (hr : r.cmp = cmp)
    (h : SplitAt cmp r.lower l.claims xs ms ys) : l.lastUpTo? r = (xs ++ ms).getLast? := by
  have hsplits := splits_probe hl.order hr h
  unfold lastUpTo?
  rw [Shape.last?_eq hsplits hl.grouped hl.size, List.getLast?_eq_getElem?, List.length_append]
  by_cases hpos : 0 < xs.length + ms.length
  · rw [if_pos hpos, Option.bind_some, h.eq, List.getElem?_append_left (by simp; omega)]
  · rw [if_neg hpos, Option.bind_none, List.getElem?_eq_none (by simp; omega)]

omit [Std.TransCmp cmp] in
/-- The elements at all positions from `k` on. -/
theorem filterMap_range_drop {β : Type u} (zs : List β) (k : Nat) :
    ((List.range zs.length).drop k).filterMap (fun i => zs[i]?) = zs.drop k := by
  induction zs generalizing k with
  | nil => simp
  | cons z zs ih =>
    rw [List.length_cons, List.range_succ_eq_map]
    cases k with
    | zero =>
      have ih' := ih 0
      simp only [List.drop_zero] at ih' ⊢
      rw [List.filterMap_cons_some (b := z) (by simp), List.filterMap_map]
      simpa [Function.comp_def] using ih'
    | succ k =>
      rw [List.drop_succ_cons, List.drop_succ_cons, ← List.map_drop, List.filterMap_map]
      simpa [Function.comp_def] using ih k

/-- The claims after a cut. -/
theorem startingAfter_eq (hl : l.Kept cmp) (hr : r.cmp = cmp)
    (h : SplitAt cmp r.lower l.claims xs ms ys) : l.startingAfter r = ys := by
  have hsplits := splits_probe hl.order hr h
  unfold startingAfter
  rw [Shape.startingAt_eq hsplits hl.grouped hl.size]
  -- The tree yields the claims from the cut on, and of these the filter takes away the one at the
  -- cut.
  have hall : ((List.range l.claims.length).drop xs.length).filterMap (fun k => l.claims[k]?) =
      ms ++ ys := by
    rw [filterMap_range_drop, h.eq, List.append_assoc, List.drop_left]
  have hiseq : ∀ x ∈ l.claims, (x.range.compareLower r).isEq =
      Cut.same cmp x.range.lower r.lower := by
    intro x hx
    rw [← hl.order x hx]
    rfl
  rw [hall, List.filter_append]
  have hms : ms.filter (fun c => !(c.range.compareLower r).isEq) = [] := by
    rw [List.filter_eq_nil_iff]
    intro x hx
    have hx' := h.here x hx
    rw [hiseq x (by simp [h.eq, hx])]
    simp [hx']
  have hys : ys.filter (fun c => !(c.range.compareLower r).isEq) = ys := by
    rw [List.filter_eq_self]
    intro x hx
    have hx' := h.after x hx
    rw [hiseq x (by simp [h.eq, hx])]
    grind
  rw [hms, hys, List.nil_append]

/-! ### Claims without overlap -/

/-- Claims that are half open and not empty, each of which ends at or before the start of the
    next. -/
structure Tidy (cmp : α → α → Ordering) (cs : List (Claim α)) : Prop where
  halfOpen : ∀ x ∈ cs, x.range.toInterval.HalfOpen
  nonempty : ∀ x ∈ cs, Cut.lt cmp x.range.lower x.range.upper
  apart : cs.Pairwise fun a b => Cut.le cmp a.range.upper b.range.lower

omit [Std.TransCmp cmp] in
theorem tidy_nil : Tidy cmp ([] : List (Claim α)) :=
  ⟨by simp, by simp, List.Pairwise.nil⟩

omit [Std.TransCmp cmp] in
/-- Two lists of claims are tidy together when the first ends before the second starts. -/
theorem tidy_append : Tidy cmp (xs ++ ys) ↔
    Tidy cmp xs ∧ Tidy cmp ys ∧ ∀ x ∈ xs, ∀ y ∈ ys, Cut.le cmp x.range.upper y.range.lower := by
  constructor
  · intro h
    obtain ⟨hxs, hys, hxy⟩ := List.pairwise_append.mp h.apart
    exact ⟨⟨fun x hx => h.halfOpen x (List.mem_append_left _ hx),
        fun x hx => h.nonempty x (List.mem_append_left _ hx), hxs⟩,
      ⟨fun y hy => h.halfOpen y (List.mem_append_right _ hy),
        fun y hy => h.nonempty y (List.mem_append_right _ hy), hys⟩, hxy⟩
  · rintro ⟨hxs, hys, hxy⟩
    refine ⟨?_, ?_, List.pairwise_append.mpr ⟨hxs.apart, hys.apart, hxy⟩⟩
    · intro x hx
      exact (List.mem_append.mp hx).elim (hxs.halfOpen x) (hys.halfOpen x)
    · intro x hx
      exact (List.mem_append.mp hx).elim (hxs.nonempty x) (hys.nonempty x)

omit [Std.TransCmp cmp] in
/-- A single claim is tidy when it is half-open and not empty. -/
theorem tidy_singleton {e : Claim α} :
    Tidy cmp [e] ↔ e.range.toInterval.HalfOpen ∧ Cut.lt cmp e.range.lower e.range.upper := by
  constructor
  · intro h
    exact ⟨h.halfOpen e (List.mem_singleton_self e), h.nonempty e (List.mem_singleton_self e)⟩
  · rintro ⟨hopen, hne⟩
    exact ⟨by simpa using hopen, by simpa using hne, List.pairwise_singleton _ _⟩

omit [Std.TransCmp cmp] in
theorem tidy_cons {e : Claim α} : Tidy cmp (e :: ys) ↔
    (e.range.toInterval.HalfOpen ∧ Cut.lt cmp e.range.lower e.range.upper) ∧ Tidy cmp ys ∧
      ∀ y ∈ ys, Cut.le cmp e.range.upper y.range.lower := by
  rw [← List.singleton_append, tidy_append, tidy_singleton]
  simp

/-- Tidy claims start at different places, in their order. -/
theorem Tidy.increasing (h : Tidy cmp cs) :
    cs.Pairwise fun a b => Cut.lt cmp a.range.lower b.range.lower := by
  refine h.apart.imp_of_mem ?_
  intro a b ha _ hab
  have hne := h.nonempty a ha
  grind

/-- Two claims of a tidy list that span the same cut are the same. -/
theorem Tidy.eq_of_spans (ht : Tidy cmp cs) {e f : Claim α} (he : e ∈ cs) (hf : f ∈ cs)
    (hspan : e.range.toInterval.Spans cmp c) (hspan' : f.range.toInterval.Spans cmp c) : e = f := by
  induction cs with
  | nil => cases he
  | cons x cs ih =>
    obtain ⟨-, htail, hx⟩ := tidy_cons.mp ht
    rcases List.mem_cons.mp he with rfl | he'
    · rcases List.mem_cons.mp hf with rfl | hf'
      · rfl
      · exact absurd hspan' (Interval.Apart.not_spans (Or.inl (hx f hf')) hspan)
    · rcases List.mem_cons.mp hf with rfl | hf'
      · exact absurd hspan (Interval.Apart.not_spans (Or.inl (hx e he')) hspan')
      · exact ih htail he' hf'

/-- The claims up to a cut start at or before it. -/
theorem SplitAt.le_of_mem (h : SplitAt cmp c cs xs ms ys) {e : Claim α} (he : e ∈ xs ++ ms) :
    Cut.le cmp e.range.lower c := by
  rcases List.mem_append.mp he with he | he
  · have hlt := h.before e he
    grind
  · have hsame := h.here e he
    grind

/-! ### Putting a claim where nothing is claimed -/

/-- A claim that overlaps no other is put in beside the others. -/
theorem put_spec (hl : l.Kept cmp) (ht : Tidy cmp l.claims) {e : Claim α} (he : e.range.cmp = cmp)
    (hopen : e.range.toInterval.HalfOpen) (hne : Cut.lt cmp e.range.lower e.range.upper)
    (hfree : ∀ x ∈ l.claims, Interval.Apart cmp x.range.toInterval e.range.toInterval) :
    (l.put e).Kept cmp ∧ Tidy cmp (l.put e).claims ∧
      ∀ x, x ∈ (l.put e).claims ↔ x = e ∨ x ∈ l.claims := by
  obtain ⟨xs, ms, ys, h⟩ := exists_splitAt ht.increasing e.range.lower
  have hmem : ∀ x, x ∈ l.claims ↔ x ∈ xs ∨ x ∈ ms ∨ x ∈ ys := by
    intro x
    simp [h.eq]
  unfold Interval.Apart at hfree
  have hms : ms = [] := by
    cases ms with
    | nil => rfl
    | cons m _ =>
      -- A claim with the same lower cut would overlap.
      have hsame := h.here m (List.mem_cons_self ..)
      have hm : m ∈ l.claims := (hmem m).mpr (by simp)
      have hfree' := hfree m hm
      have hmne := ht.nonempty m hm
      grind
  subst hms
  obtain ⟨hput, hkept⟩ := claims_put hl he h
  have hclaims : l.claims = xs ++ ys := by simpa using h.eq
  obtain ⟨hxs, hys, hxy⟩ := tidy_append.mp (hclaims ▸ ht)
  rw [hput, hclaims]
  refine ⟨hkept, tidy_append.mpr ⟨hxs, tidy_cons.mpr ⟨⟨hopen, hne⟩, hys, ?_⟩, ?_⟩, ?_⟩
  · intro y hy
    have hlt := h.after y hy
    have hfree' := hfree y ((hmem y).mpr (Or.inr (Or.inr hy)))
    have hyne := hys.nonempty y hy
    grind
  · intro x hx y hy
    rcases List.mem_cons.mp hy with rfl | hy
    · have hlt := h.before x hx
      have hfree' := hfree x ((hmem x).mpr (Or.inl hx))
      grind
    · exact hxy x hx y hy
  · intro x
    simp only [List.mem_append, List.mem_cons]
    grind

/-! ### The claims that overlap a range -/

/-- Ranges that are not empty overlap when each starts before the other ends. -/
theorem overlaps_iff {x : Claim α} (hx : x.range.cmp = cmp)
    (hne : Cut.lt cmp x.range.lower x.range.upper) (hr : Cut.lt cmp r.lower r.upper) :
    x.range.overlaps r ↔ Cut.lt cmp x.range.lower r.upper ∧ Cut.lt cmp r.lower x.range.upper := by
  unfold Range.overlaps
  rw [hx, Interval.overlaps_iff]
  simp only [hne, hr, true_and]

/-- Among claims that start after the start of a range, those that do not overlap it start after its
    end. -/
theorem le_of_mem_dropWhile (hcmp : ∀ y ∈ ys, y.range.cmp = cmp) (ht : Tidy cmp ys)
    (hne : Cut.lt cmp r.lower r.upper) (hys : ∀ y ∈ ys, Cut.lt cmp r.lower y.range.lower) :
    ∀ x ∈ ys.dropWhile (fun y => y.range.overlaps r), Cut.le cmp r.upper x.range.lower := by
  induction ys with
  | nil => simp
  | cons y ys ih =>
    obtain ⟨⟨-, hy⟩, htail, hapart⟩ := tidy_cons.mp ht
    have hlow := hys y (List.mem_cons_self ..)
    have hoverlaps := overlaps_iff (hcmp y (List.mem_cons_self ..)) hy hne
    rw [List.dropWhile_cons]
    split
    · exact ih (fun x hx => hcmp x (List.mem_cons_of_mem _ hx)) htail
        fun x hx => hys x (List.mem_cons_of_mem _ hx)
    · -- The claim starts after the range, and so do all those after it.
      rename_i hnot
      rw [hoverlaps] at hnot
      intro x hx
      rcases List.mem_cons.mp hx with rfl | hx
      · grind
      · have hx' := hapart x hx
        grind

/-- The claims that overlap a range are next to each other: those before them end before the range,
    and those after them start after it. -/
theorem overlapping_spec (hl : l.Kept cmp) (ht : Tidy cmp l.claims) (hr : r.cmp = cmp)
    (hne : Cut.lt cmp r.lower r.upper) :
    ∃ pre post, l.claims = pre ++ l.overlapping r ++ post ∧
      (∀ x ∈ pre, Cut.le cmp x.range.upper r.lower) ∧
      (∀ x ∈ l.overlapping r,
        Cut.lt cmp x.range.lower r.upper ∧ Cut.lt cmp r.lower x.range.upper) ∧
      ∀ x ∈ post, Cut.le cmp r.upper x.range.lower := by
  obtain ⟨xs, ms, ys, h⟩ := exists_splitAt ht.increasing r.lower
  have hys : ∀ y ∈ ys, y ∈ l.claims := by
    intro y hy
    simp [h.eq, hy]
  obtain ⟨hxsTidy, hysTidy, hapart⟩ := tidy_append.mp (h.eq ▸ ht)
  have hafter := le_of_mem_dropWhile (fun y hy => hl.order y (hys y hy)) hysTidy hne h.after
  have hmiddle : ∀ x ∈ ys.takeWhile (fun y => y.range.overlaps r),
      Cut.lt cmp x.range.lower r.upper ∧ Cut.lt cmp r.lower x.range.upper := by
    intro x hx
    have hx' := hys x ((List.takeWhile_sublist _).subset hx)
    exact (overlaps_iff (hl.order x hx') (ht.nonempty x hx') hne).mp
      (List.all_eq_true.mp List.all_takeWhile x hx)
  have hysEq := List.takeWhile_append_dropWhile (p := fun y : Claim α => y.range.overlaps r)
    (l := ys)
  unfold overlapping
  rw [lastUpTo?_eq hl hr h, startingAfter_eq hl hr h]
  cases hlast : (xs ++ ms).getLast? with
  | none =>
    have hnil : xs ++ ms = [] := List.getLast?_eq_none_iff.mp hlast
    refine ⟨[], _, ?_, nofun, ?_, hafter⟩
    · simp [h.eq, hnil, hysEq]
    · simpa using hmiddle
  | some e =>
    obtain ⟨init, hinit⟩ := List.getLast?_eq_some_iff.mp hlast
    have hclaims : l.claims = init ++ [e] ++ ys := by rw [h.eq, hinit]
    have he : e ∈ l.claims := by simp [hclaims]
    have hstart := h.le_of_mem (List.mem_of_getLast? hlast)
    have hbefore : ∀ x ∈ init, Cut.le cmp x.range.upper e.range.lower := by
      intro x hx
      exact (tidy_append.mp (hinit ▸ hxsTidy)).2.2 x hx e (List.mem_singleton_self e)
    -- Of the claims up to the start of the range only the last one can reach into it.
    have hiff := overlaps_iff (hl.order e he) (ht.nonempty e he) hne
    by_cases hover : e.range.overlaps r
    · have hkeep : ((some e).filter fun c => c.range.overlaps r) = some e := by simp [hover]
      rw [hkeep]
      refine ⟨init, _, ?_, ?_, ?_, hafter⟩
      · simp [hclaims, hysEq]
      · intro x hx
        have hx' := hbefore x hx
        grind
      · intro x hx
        rw [Option.toList_some, List.singleton_append] at hx
        rcases List.mem_cons.mp hx with rfl | hx
        · exact hiff.mp hover
        · exact hmiddle x hx
    · -- The last claim up to the start of the range ends before it.
      have hkeep : ((some e).filter fun c => c.range.overlaps r) = none := by simp [hover]
      rw [hkeep]
      refine ⟨init ++ [e], _, ?_, ?_, ?_, hafter⟩
      · simp [hclaims, hysEq]
      · intro x hx
        have hend := mt hiff.mpr hover
        rcases List.mem_append.mp hx with hx | hx
        · have hx' := hbefore x hx
          grind
        · rw [List.mem_singleton] at hx
          subst hx
          grind
      · simpa using hmiddle

/-- The claims that are found are all the claims that overlap the range. -/
theorem mem_overlapping_iff (hl : l.Kept cmp) (ht : Tidy cmp l.claims) (hr : r.cmp = cmp)
    (hne : Cut.lt cmp r.lower r.upper) {e : Claim α} :
    e ∈ l.overlapping r ↔ e ∈ l.claims ∧ e.range.overlaps r := by
  obtain ⟨pre, post, hclaims, hpre, hover, hpost⟩ := overlapping_spec hl ht hr hne
  constructor
  · intro he
    have hmem : e ∈ l.claims := by
      rw [hclaims]
      simp [he]
    exact ⟨hmem, (overlaps_iff (hl.order e hmem) (ht.nonempty e hmem) hne).mpr (hover e he)⟩
  · rintro ⟨hmem, hoverlaps⟩
    have hcuts := (overlaps_iff (hl.order e hmem) (ht.nonempty e hmem) hne).mp hoverlaps
    rw [hclaims, List.mem_append, List.mem_append] at hmem
    -- The claims before those that were found end before the range, and those after start after it.
    rcases hmem with (hmem | hmem) | hmem
    · have hbefore := hpre e hmem
      grind
    · exact hmem
    · have hafter := hpost e hmem
      grind

/-! ### Looking up a value -/

/-- The last claim up to a value is the only one that can contain it. -/
theorem lastUpTo?_filter_eq_some (hl : l.Kept cmp) (ht : Tidy cmp l.claims) (hr : r.cmp = cmp)
    {v : α} (hv : r.lower = .below v) (e : Claim α) :
    ((l.lastUpTo? r).filter fun c => c.range.contains v) = some e ↔
      e ∈ l.claims ∧ e.range.contains v := by
  obtain ⟨xs, ms, ys, h⟩ := exists_splitAt ht.increasing r.lower
  rw [lastUpTo?_eq hl hr h, Option.filter_eq_some_iff]
  constructor
  · rintro ⟨hlast, hcontains⟩
    have hmem := List.mem_of_getLast? hlast
    refine ⟨?_, hcontains⟩
    rw [h.eq]
    exact List.mem_append_left _ hmem
  · rintro ⟨he, hcontains⟩
    refine ⟨?_, hcontains⟩
    have hspan := (Range.contains_iff_spans (hl.order e he) v).mp hcontains
    unfold Interval.Spans at hspan
    have hmem : e ∈ xs ++ ms := by
      rw [h.eq] at he
      rcases List.mem_append.mp he with he | he
      · exact he
      · have hlt := h.after e he
        rw [hv] at hlt
        grind
    obtain ⟨f, hf⟩ : ∃ f, (xs ++ ms).getLast? = some f :=
      ⟨_, List.getLast?_eq_some_getLast (List.ne_nil_of_mem hmem)⟩
    obtain ⟨init, hinit⟩ := List.getLast?_eq_some_iff.mp hf
    rw [hf]
    rw [hinit] at hmem
    rcases List.mem_append.mp hmem with hmem | hmem
    · -- A claim before the last one ends before the last one starts, so before the value.
      obtain ⟨htidy, -, -⟩ := tidy_append.mp (h.eq ▸ ht)
      have hle := (tidy_append.mp (hinit ▸ htidy)).2.2 e hmem f (List.mem_singleton_self f)
      have hfle := h.le_of_mem (List.mem_of_getLast? hf)
      rw [hv] at hfle
      grind
    · rw [List.mem_singleton.mp hmem]

end

end Allotment.Ledger
