import Allotment.IntervalSet.Basic
import Allotment.Proofs.Interval

namespace Allotment.IntervalSet

/-!
# The normal form of a list of members

A list of members is normal when no member is empty and each one ends before the next one starts,
with something between them.  The lists of members that the operations work on are normal before and
after; in between, a list may hold members that overlap, but it is always in the order of the lower
cuts.

* `Increasing`, `Normal` — the two properties of a list of members;
* `Covers` — the cuts that some member spans;
* `floor?_eq_some`, `before?_eq_some` — what the neighbour of a cut tells about all other members;
* `mem_put`, `mem_store` — the members after one is stored;
* `contains_iff_covers`, `overlapsInterval_iff`, `covers_of_enclosesInterval`,
  `enclosesInterval_of_covers` — the one or two members that a query looks at decide for all of
  them.
-/

universe u

variable {α : Type u} {cmp : α → α → Ordering}

/-- Members in the strict order of their lower cuts. -/
def Increasing (cmp : α → α → Ordering) (ms : List (Interval α)) : Prop :=
  ms.Pairwise fun a b => Cut.lt cmp a.lower b.lower

/-- Members that are not empty, each of which ends before all later ones start. -/
structure Normal (cmp : α → α → Ordering) (ms : List (Interval α)) : Prop where
  nonempty : ∀ m ∈ ms, Cut.lt cmp m.lower m.upper
  apart : ms.Pairwise fun a b => Cut.lt cmp a.upper b.lower

/-- Whether some member spans a cut. -/
def Covers (cmp : α → α → Ordering) (ms : List (Interval α)) (c : Cut α) : Prop :=
  ∃ m ∈ ms, m.Spans cmp c

theorem normal_nil : Normal cmp ([] : List (Interval α)) :=
  ⟨by simp, List.Pairwise.nil⟩

theorem normal_singleton {m : Interval α} (hm : Cut.lt cmp m.lower m.upper) : Normal cmp [m] :=
  ⟨List.forall_mem_singleton.mpr hm, List.pairwise_singleton _ _⟩

theorem not_covers_nil (c : Cut α) : ¬ Covers cmp [] c := by
  simp [Covers]

/-- What a list of members covers, its first member covers or the others do. -/
theorem covers_cons (m : Interval α) (ms : List (Interval α)) (c : Cut α) :
    Covers cmp (m :: ms) c ↔ m.Spans cmp c ∨ Covers cmp ms c := by
  simp [Covers]

/-- Members in two lists cover what one of the lists covers. -/
theorem covers_append (ms ns : List (Interval α)) (c : Cut α) :
    Covers cmp (ms ++ ns) c ↔ Covers cmp ms c ∨ Covers cmp ns c := by
  simp [Covers, or_and_right, exists_or]

/-- A part of a normal list is normal. -/
theorem Normal.sublist {ms ns : List (Interval α)} (h : Normal cmp ms) (hsub : ns.Sublist ms) :
    Normal cmp ns :=
  ⟨fun m hm => h.nonempty m (hsub.subset hm), h.apart.sublist hsub⟩

/-- An increasing list is normal once a member that starts before another one also ends before
    it. -/
theorem Increasing.normal {ms : List (Interval α)} (h : Increasing cmp ms)
    (hne : ∀ m ∈ ms, Cut.lt cmp m.lower m.upper)
    (hap : ∀ a ∈ ms, ∀ b ∈ ms, Cut.lt cmp a.lower b.lower → Cut.lt cmp a.upper b.lower) :
    Normal cmp ms :=
  ⟨hne, h.imp_of_mem fun ha hb hab => hap _ ha _ hb hab⟩

/-- Two members of a normal list are the same, or one ends before the other starts. -/
theorem Normal.eq_or_apart {ms : List (Interval α)} (h : Normal cmp ms) {a b : Interval α}
    (ha : a ∈ ms) (hb : b ∈ ms) :
    a = b ∨ Cut.lt cmp a.upper b.lower ∨ Cut.lt cmp b.upper a.lower := by
  induction ms with
  | nil => simp at ha
  | cons m ms ih =>
    have htail : Normal cmp ms := h.sublist (List.sublist_cons_self m ms)
    have hhead := (List.pairwise_cons.mp h.apart).1
    rcases List.mem_cons.mp ha with rfl | ha'
    · rcases List.mem_cons.mp hb with rfl | hb'
      · exact Or.inl rfl
      · exact Or.inr (Or.inl (hhead b hb'))
    · rcases List.mem_cons.mp hb with rfl | hb'
      · exact Or.inr (Or.inr (hhead a ha'))
      · exact ih htail ha' hb'

/-! ### The member next to a cut -/

/-- In a list that is sorted by `R`, the last element with a property comes after all others with
    it. -/
theorem getLast?_filter_eq_some {β : Type u} {R : β → β → Prop} {p : β → Bool} {l : List β} {x : β}
    (hl : l.Pairwise R) (hx : (l.filter p).getLast? = some x) :
    x ∈ l ∧ p x = true ∧ ∀ y ∈ l, p y = true → y = x ∨ R y x := by
  obtain ⟨ys, hys⟩ := List.getLast?_eq_some_iff.mp hx
  have hmem : x ∈ l.filter p := by
    rw [hys]
    simp
  refine ⟨(List.mem_filter.mp hmem).1, (List.mem_filter.mp hmem).2, ?_⟩
  intro y hy hpy
  have hpair := hl.filter p
  rw [hys] at hpair
  have hy' : y ∈ ys ++ [x] := hys ▸ List.mem_filter.mpr ⟨hy, hpy⟩
  rcases List.mem_append.mp hy' with hin | hin
  · exact Or.inr ((List.pairwise_append.mp hpair).2.2 y hin x (by simp))
  · exact Or.inl (List.mem_singleton.mp hin)

/-- Without a last element of a kind there is none of the kind. -/
theorem getLast?_filter_eq_none {β : Type u} {p : β → Bool} {l : List β}
    (hx : (l.filter p).getLast? = none) : ∀ y ∈ l, p y = false := by
  intro y hy
  rw [List.getLast?_eq_none_iff, List.filter_eq_nil_iff] at hx
  simpa using hx y hy

variable {s : IntervalSet α}

/-- The member at or before a cut: those that start no later are before it. -/
theorem floor?_eq_some {c : Cut α} {m : Interval α} (hs : Normal s.cmp s.members)
    (h : s.floor? c = some m) :
    m ∈ s.members ∧ Cut.le s.cmp m.lower c ∧
      ∀ x ∈ s.members, Cut.le s.cmp x.lower c → x = m ∨ Cut.lt s.cmp x.upper m.lower :=
  getLast?_filter_eq_some hs.apart h

/-- Where no member is found up to a cut, all start after it. -/
theorem floor?_eq_none {c : Cut α} (h : s.floor? c = none) :
    ∀ x ∈ s.members, Cut.le s.cmp x.lower c = false :=
  getLast?_filter_eq_none h

/-- The member before a cut: those that start earlier than the cut are before it. -/
theorem before?_eq_some {c : Cut α} {m : Interval α} (hs : Normal s.cmp s.members)
    (h : s.before? c = some m) :
    m ∈ s.members ∧ Cut.lt s.cmp m.lower c ∧
      ∀ x ∈ s.members, Cut.lt s.cmp x.lower c → x = m ∨ Cut.lt s.cmp x.upper m.lower :=
  getLast?_filter_eq_some hs.apart h

/-- Where no member is found before a cut, none starts before it. -/
theorem before?_eq_none {c : Cut α} (h : s.before? c = none) :
    ∀ x ∈ s.members, Cut.lt s.cmp x.lower c = false :=
  getLast?_filter_eq_none h

variable [Std.TransCmp cmp]

/-- Members in normal form are in the order of their lower cuts. -/
theorem Normal.increasing {ms : List (Interval α)} (h : Normal cmp ms) : Increasing cmp ms := by
  refine h.apart.imp_of_mem ?_
  intro a b ha _ hab
  have hne := h.nonempty a ha
  grind

/-- A member that starts before a cut and reaches it is the last one before the cut. -/
theorem before?_of_reaches [Std.TransCmp s.cmp] (hs : Normal s.cmp s.members) {c : Cut α}
    {m : Interval α} (hm : m ∈ s.members) (hlower : Cut.lt s.cmp m.lower c)
    (hreach : Cut.le s.cmp c m.upper) : s.before? c = some m := by
  cases hbefore : s.before? c with
  | none =>
    have hnone := before?_eq_none hbefore m hm
    rw [hlower] at hnone
    cases hnone
  | some f =>
    obtain ⟨-, hf, hlast⟩ := before?_eq_some hs hbefore
    rcases hlast m hm hlower with rfl | hlt
    · rfl
    · grind

/-- A member that starts at a cut or before it and reaches it is the last one up to the cut. -/
theorem floor?_of_reaches [Std.TransCmp s.cmp] (hs : Normal s.cmp s.members) {c : Cut α}
    {m : Interval α} (hm : m ∈ s.members) (hlower : Cut.le s.cmp m.lower c)
    (hreach : Cut.le s.cmp c m.upper) : s.floor? c = some m := by
  cases hfloor : s.floor? c with
  | none =>
    have hnone := floor?_eq_none hfloor m hm
    rw [hlower] at hnone
    cases hnone
  | some f =>
    obtain ⟨-, hf, hlast⟩ := floor?_eq_some hs hfloor
    rcases hlast m hm hlower with rfl | hlt
    · rfl
    · grind

/-- A normal list leaves a gap where a member ends. -/
theorem Normal.not_covers_upper {ms : List (Interval α)} (h : Normal cmp ms) {m : Interval α}
    (hm : m ∈ ms) : ¬ Covers cmp ms m.upper := by
  rintro ⟨x, hx, hspan⟩
  have hxm := h.eq_or_apart hx hm
  have hne := h.nonempty m hm
  unfold Interval.Spans at hspan
  grind

/-! ### Storing and dropping members -/

/-- Storing a member takes away the one with the same lower cut, and no other. -/
theorem mem_put {ms : List (Interval α)} (h : Increasing cmp ms) (r x : Interval α) :
    x ∈ put cmp r ms ↔ x = r ∨ x ∈ ms ∧ Cut.same cmp x.lower r.lower = false := by
  induction ms with
  | nil => simp [put]
  | cons m ms ih =>
    have htail : Increasing cmp ms := (List.pairwise_cons.mp h).2
    have hhead := (List.pairwise_cons.mp h).1
    unfold put
    split
    · -- `r` comes before the first member, so it is at no member's cut.
      rename_i hlt
      rw [Cut.compare_eq_lt_iff] at hlt
      grind
    · -- `r` takes the place of the first member.
      rename_i heq
      rw [Cut.compare_eq_eq_iff] at heq
      grind
    · rename_i hgt
      rw [Cut.compare_eq_gt_iff] at hgt
      have ih' := ih htail
      grind

/-- Storing a member keeps the order. -/
theorem increasing_put {ms : List (Interval α)} (h : Increasing cmp ms) (r : Interval α) :
    Increasing cmp (put cmp r ms) := by
  induction ms with
  | nil => simp [put, Increasing]
  | cons m ms ih =>
    have htail : Increasing cmp ms := (List.pairwise_cons.mp h).2
    have hhead := (List.pairwise_cons.mp h).1
    unfold put
    split
    · -- The new member comes first.
      rename_i hlt
      rw [Cut.compare_eq_lt_iff] at hlt
      refine List.pairwise_cons.mpr ⟨?_, h⟩
      grind
    · -- It takes the place of the first member, which starts where it does.
      rename_i heq
      rw [Cut.compare_eq_eq_iff] at heq
      refine List.pairwise_cons.mpr ⟨?_, htail⟩
      grind
    · -- It goes further back, so the first member stays where it is.
      rename_i hgt
      rw [Cut.compare_eq_gt_iff] at hgt
      refine List.pairwise_cons.mpr ⟨?_, ih htail⟩
      intro x hx
      rw [mem_put htail] at hx
      grind

/-- The members after an interval is stored: the one with its lower cut gives way, also to an empty
    interval, which is not held. -/
theorem mem_store [Std.TransCmp s.cmp] (h : Increasing s.cmp s.members) (r x : Interval α) :
    x ∈ (s.store r).members ↔
      x = r ∧ Cut.lt s.cmp r.lower r.upper ∨
      x ∈ s.members ∧ Cut.same s.cmp x.lower r.lower = false := by
  unfold store
  by_cases hr : r.isEmpty s.cmp
  · rw [if_pos hr]
    rw [Interval.isEmpty_iff] at hr
    simp only [List.mem_filter, Bool.not_eq_true']
    grind
  · rw [if_neg hr]
    rw [Bool.not_eq_true, Interval.isEmpty_eq_false_iff] at hr
    show x ∈ put s.cmp r s.members ↔ _
    rw [mem_put h]
    grind

/-- Storing an interval keeps the order of the lower cuts. -/
theorem increasing_store [Std.TransCmp s.cmp] (h : Increasing s.cmp s.members) (r : Interval α) :
    Increasing s.cmp (s.store r).members := by
  unfold store
  by_cases hr : r.isEmpty s.cmp
  · rw [if_pos hr]
    exact h.filter _
  · rw [if_neg hr]
    exact increasing_put h r

@[simp] theorem store_cmp (r : Interval α) : (s.store r).cmp = s.cmp := by
  unfold store
  split <;> rfl

@[simp] theorem dropBetween_cmp (l u : Cut α) : (s.dropBetween l u).cmp = s.cmp :=
  rfl

instance [h : Std.TransCmp s.cmp] (r : Interval α) : Std.TransCmp (s.store r).cmp := by
  rw [store_cmp]
  exact h

instance [h : Std.TransCmp s.cmp] (l u : Cut α) : Std.TransCmp (s.dropBetween l u).cmp :=
  h

/-- The members after those that start in a stretch are dropped. -/
theorem mem_dropBetween (l u : Cut α) (x : Interval α) :
    x ∈ (s.dropBetween l u).members ↔
      x ∈ s.members ∧ ¬ (Cut.le s.cmp l x.lower ∧ Cut.lt s.cmp x.lower u) := by
  simp only [dropBetween, List.mem_filter, Bool.not_eq_true', ← Bool.not_eq_true, Bool.and_eq_true]

/-- So does dropping members. -/
theorem increasing_dropBetween (h : Increasing s.cmp s.members) (l u : Cut α) :
    Increasing s.cmp (s.dropBetween l u).members :=
  h.filter _

/-! ### Queries -/

/-- A query for a value looks at one member only; in a normal list no other one can contain the
    value. -/
theorem contains_iff_covers [Std.TransCmp s.cmp] (hs : Normal s.cmp s.members) (v : α) :
    s.contains v ↔ Covers s.cmp s.members (.below v) := by
  unfold contains memberOf?
  rw [Option.isSome_filter, Option.any_eq_true]
  constructor
  · rintro ⟨m, hm, hv⟩
    exact ⟨m, (floor?_eq_some hs hm).1, (Interval.contains_iff_spans m v).mp hv⟩
  · rintro ⟨x, hx, hspan⟩
    cases hfloor : s.floor? (.below v) with
    | none =>
      have hnone := floor?_eq_none hfloor x hx
      rw [hspan.1] at hnone
      cases hnone
    | some m =>
      -- The last member up to the cut is the only one that can span it.
      obtain ⟨_, hle, hlast⟩ := floor?_eq_some hs hfloor
      obtain ⟨hlower, hupper⟩ := hspan
      rcases hlast x hx hlower with rfl | hlt
      · exact ⟨x, rfl, (Interval.contains_iff_spans x v).mpr ⟨hlower, hupper⟩⟩
      · grind

/-- The first member that starts at a cut or after it: all others that do are past its end. -/
theorem ceiling?_eq_some [Std.TransCmp s.cmp] (hs : Normal s.cmp s.members) {c : Cut α}
    {f : Interval α} (h : s.ceiling? c = some f) :
    f ∈ s.members ∧ Cut.le s.cmp c f.lower ∧
      ∀ m ∈ s.members, Cut.le s.cmp c m.lower → m = f ∨ Cut.lt s.cmp f.upper m.lower := by
  obtain ⟨hflow, as, bs, hmembers, has⟩ := List.find?_eq_some_iff_append.mp h
  refine ⟨List.mem_of_find?_eq_some h, hflow, ?_⟩
  intro m hm hlow
  rw [hmembers] at hm
  rcases List.mem_append.mp hm with hm | hm
  · have hnot := has m hm
    rw [hlow] at hnot
    cases hnot
  · rcases List.mem_cons.mp hm with rfl | hm
    · exact Or.inl rfl
    · have hapart := (List.pairwise_append.mp (hmembers ▸ hs.apart)).2.1
      exact Or.inr ((List.pairwise_cons.mp hapart).1 m hm)

/-- Where no member is found from a cut on, all start before it. -/
theorem ceiling?_eq_none {c : Cut α} (h : s.ceiling? c = none) :
    ∀ m ∈ s.members, Cut.le s.cmp c m.lower = false := by
  intro m hm
  have hnot := List.find?_eq_none.mp h m hm
  simpa using hnot

/-- A query for the overlap with an interval looks at two members only; when neither overlaps it, no
    other one does. -/
theorem overlapsInterval_iff [Std.TransCmp s.cmp] (hs : Normal s.cmp s.members) (r : Interval α) :
    s.overlapsInterval r ↔ ∃ m ∈ s.members, m.overlaps s.cmp r := by
  unfold overlapsInterval
  rw [Bool.or_eq_true, Option.any_eq_true, Option.any_eq_true]
  constructor
  · rintro (⟨m, hm, hover⟩ | ⟨m, hm, hover⟩)
    · exact ⟨m, List.mem_of_find?_eq_some hm, hover⟩
    · exact ⟨m, (before?_eq_some hs hm).1, hover⟩
  · rintro ⟨m, hm, hover⟩
    have hover' := (Interval.overlaps_iff m r).mp hover
    by_cases hlow : Cut.le s.cmp r.lower m.lower
    · -- The first member from the start of `r` on is `m` or comes before it, so it overlaps `r`
      -- too.
      left
      cases hceiling : s.ceiling? r.lower with
      | none =>
        have hnone := ceiling?_eq_none hceiling m hm
        rw [hlow] at hnone
        cases hnone
      | some f =>
        obtain ⟨hf, hflow, hfirst⟩ := ceiling?_eq_some hs hceiling
        refine ⟨f, rfl, ?_⟩
        have hfm := hfirst m hm hlow
        have hfne := hs.nonempty f hf
        rw [Interval.overlaps_iff]
        grind
    · right
      -- A member before the last one before `r` ends before that one starts, so it cannot overlap
      -- `r`.
      have hlt : Cut.lt s.cmp m.lower r.lower := by grind
      cases hbefore : s.before? r.lower with
      | none =>
        have hnone := before?_eq_none hbefore m hm
        rw [hlt] at hnone
        cases hnone
      | some f =>
        obtain ⟨-, hflow, hlast⟩ := before?_eq_some hs hbefore
        refine ⟨f, rfl, ?_⟩
        rcases hlast m hm hlt with rfl | happart
        · exact hover
        · grind

/-- An interval that a single member encloses is covered. -/
theorem covers_of_enclosesInterval [Std.TransCmp s.cmp] (hs : Normal s.cmp s.members)
    {r : Interval α} (h : s.enclosesInterval r) {c : Cut α} (hc : r.Spans s.cmp c) :
    Covers s.cmp s.members c := by
  unfold enclosesInterval at h
  cases hfloor : s.floor? r.lower with
  | none => simp [hfloor] at h
  | some m =>
    simp only [hfloor, Interval.encloses, Bool.and_eq_true] at h
    refine ⟨m, (floor?_eq_some hs hfloor).1, ?_⟩
    unfold Interval.Spans at hc ⊢
    grind

/-- An interval that is covered is enclosed by a single member: past the end of the member that it
    starts in there is a gap. -/
theorem enclosesInterval_of_covers [Std.TransCmp s.cmp] (hs : Normal s.cmp s.members)
    {r : Interval α} (hr : Cut.lt s.cmp r.lower r.upper)
    (h : ∀ c, r.Spans s.cmp c → Covers s.cmp s.members c) : s.enclosesInterval r := by
  obtain ⟨m, hm, hlower, hupper⟩ := h r.lower ⟨Cut.le_refl _, hr⟩
  unfold enclosesInterval
  rw [floor?_of_reaches hs hm hlower (by grind)]
  refine (Interval.encloses_iff m r).mpr ⟨hlower, ?_⟩
  by_cases hend : Cut.le s.cmp r.upper m.upper
  · exact hend
  · have hspan : r.Spans s.cmp m.upper := ⟨by grind, by grind⟩
    exact absurd (h m.upper hspan) (hs.not_covers_upper hm)

end Allotment.IntervalSet
