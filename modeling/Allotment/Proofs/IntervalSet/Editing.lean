import Allotment.Proofs.IntervalSet.NormalForm

namespace Allotment.IntervalSet

/-!
# Inserting and erasing

An edit looks at two neighbours of the interval that it is given, stores one or two members and
drops those that start inside a stretch.  On a normal list of members the result is normal again,
and it covers what it should:

* `normal_insert`, `covers_insert` — the cuts of the set or of the interval;
* `normal_erase`, `covers_erase` — the cuts of the set that the interval does not span;
* `foldl_insert_spec` — inserting one interval after another.
-/

universe u

variable {α : Type u} {s : IntervalSet α} {r : Interval α}

/-! ### Inserting -/

@[simp] theorem insert_cmp : (s.insert r).cmp = s.cmp := by
  simp [insert]

variable [Std.TransCmp s.cmp]

/-- The interval that grew to the left starts and ends outside `r`, and all members that start
    before it end before it.  What it spans beyond `r`, a member spans. -/
theorem extendLeft_spec (hs : Normal s.cmp s.members) :
    Cut.le s.cmp (s.extendLeft r).lower r.lower ∧ Cut.le s.cmp r.upper (s.extendLeft r).upper ∧
      (∀ m ∈ s.members, Cut.lt s.cmp m.lower (s.extendLeft r).lower →
        Cut.lt s.cmp m.upper (s.extendLeft r).lower) ∧
      ∀ c, (s.extendLeft r).Spans s.cmp c → r.Spans s.cmp c ∨ Covers s.cmp s.members c := by
  unfold extendLeft
  cases hbefore : s.before? r.lower with
  | none =>
    have hnone := before?_eq_none hbefore
    refine ⟨Cut.le_refl _, Cut.le_refl _, ?_, fun c hc => Or.inl hc⟩
    intro m hm hlt
    rw [hnone m hm] at hlt
    cases hlt
  | some m =>
    obtain ⟨hm, hlower, hlast⟩ := before?_eq_some hs hbefore
    have hne := hs.nonempty m hm
    by_cases hreach : Cut.le s.cmp r.lower m.upper
    · -- `m` reaches `r`: the interval starts where `m` does.
      simp only [hreach, if_true]
      refine ⟨by grind, ?_, ?_, ?_⟩
      · by_cases hend : Cut.le s.cmp r.upper m.upper
        · rw [if_pos hend]
          exact hend
        · rw [if_neg hend]
          exact Cut.le_refl _
      · intro x hx hlt
        have hap := hs.eq_or_apart hx hm
        grind
      · intro c hc
        by_cases hmc : m.Spans s.cmp c
        · exact Or.inr ⟨m, hm, hmc⟩
        · left
          unfold Interval.Spans at hc hmc ⊢
          grind
    · -- `m` ends before `r`, and the members before `m` end even earlier.
      simp only [hreach]
      refine ⟨Cut.le_refl _, Cut.le_refl _, ?_, fun c hc => Or.inl hc⟩
      intro x hx hlt
      have hx' := hlast x hx hlt
      grind

/-- The interval that grew to the right ends where no member goes on. -/
theorem extendRight_spec (hs : Normal s.cmp s.members) :
    (s.extendRight r).lower = r.lower ∧ Cut.le s.cmp r.upper (s.extendRight r).upper ∧
      (∀ m ∈ s.members, Cut.le s.cmp m.lower (s.extendRight r).upper →
        Cut.le s.cmp m.upper (s.extendRight r).upper) ∧
      ∀ c, (s.extendRight r).Spans s.cmp c → r.Spans s.cmp c ∨ Covers s.cmp s.members c := by
  unfold extendRight
  cases hfloor : s.floor? r.upper with
  | none =>
    have hnone := floor?_eq_none hfloor
    refine ⟨rfl, Cut.le_refl _, ?_, fun c hc => Or.inl hc⟩
    intro m hm hle
    rw [hnone m hm] at hle
    cases hle
  | some m =>
    obtain ⟨hm, hlower, hlast⟩ := floor?_eq_some hs hfloor
    have hne := hs.nonempty m hm
    by_cases hreach : Cut.le s.cmp r.upper m.upper
    · -- `m` goes on past the end of `r`, so the interval ends where `m` does.
      simp only [hreach, if_true]
      refine ⟨trivial, trivial, ?_, ?_⟩
      · intro x hx hle
        have hap := hs.eq_or_apart hx hm
        have hnx := hs.nonempty x hx
        grind
      · intro c hc
        by_cases hmc : m.Spans s.cmp c
        · exact Or.inr ⟨m, hm, hmc⟩
        · left
          unfold Interval.Spans at hc hmc ⊢
          grind
    · simp only [hreach]
      refine ⟨rfl, Cut.le_refl _, ?_, fun c hc => Or.inl hc⟩
      intro x hx hle
      have hx' := hlast x hx hle
      grind

/-- What an insertion stores: an interval around `r` that no member crosses or touches, and that
    spans nothing but what `r` and the members inside it span.  The members inside it go. -/
theorem mem_insert (hs : Normal s.cmp s.members) (hr : Cut.lt s.cmp r.lower r.upper) :
    ∃ g : Interval α, Cut.lt s.cmp g.lower g.upper ∧
      (∀ x, x ∈ (s.insert r).members ↔
        x = g ∨ x ∈ s.members ∧ (Cut.lt s.cmp x.upper g.lower ∨ Cut.lt s.cmp g.upper x.lower)) ∧
      (∀ m ∈ s.members, Cut.lt s.cmp m.upper g.lower ∨ Cut.lt s.cmp g.upper m.lower ∨
        Cut.le s.cmp g.lower m.lower ∧ Cut.le s.cmp m.upper g.upper) ∧
      (∀ c, r.Spans s.cmp c → g.Spans s.cmp c) ∧
      ∀ c, g.Spans s.cmp c → r.Spans s.cmp c ∨ Covers s.cmp s.members c := by
  obtain ⟨hl₁, hl₂, hl₃, hl₄⟩ := extendLeft_spec (r := r) hs
  obtain ⟨hr₁, hr₂, hr₃, hr₄⟩ := extendRight_spec (r := s.extendLeft r) hs
  -- A member that touches the grown interval on one side would have made it grow there.
  have hap : ∀ m ∈ s.members, Cut.lt s.cmp m.upper (s.extendRight (s.extendLeft r)).lower ∨
      Cut.lt s.cmp (s.extendRight (s.extendLeft r)).upper m.lower ∨
      Cut.le s.cmp (s.extendRight (s.extendLeft r)).lower m.lower ∧
        Cut.le s.cmp m.upper (s.extendRight (s.extendLeft r)).upper := by
    intro m hm
    have hleft := hl₃ m hm
    have hright := hr₃ m hm
    grind
  refine ⟨s.extendRight (s.extendLeft r), by grind, ?_, hap, ?_, ?_⟩
  · intro x
    unfold insert
    rw [mem_store (increasing_dropBetween hs.increasing _ _), mem_dropBetween]
    simp only [dropBetween_cmp]
    have hx := hap x
    have hne := hs.nonempty x
    grind
  · intro c hc
    unfold Interval.Spans at hc ⊢
    grind
  · intro c hc
    rcases hr₄ c hc with h | h
    · exact hl₄ c h
    · exact Or.inr h

/-- An insertion keeps the members in normal form. -/
theorem normal_insert (hs : Normal s.cmp s.members) (hr : Cut.lt s.cmp r.lower r.upper) :
    Normal s.cmp (s.insert r).members := by
  obtain ⟨g, hg, hmem, hap, -, -⟩ := mem_insert hs hr
  have hinc : Increasing s.cmp (s.insert r).members := by
    unfold insert
    exact increasing_store (s := s.dropBetween _ _) (increasing_dropBetween hs.increasing _ _) _
  refine hinc.normal ?_ ?_
  · intro m hm
    rcases (hmem m).mp hm with rfl | ⟨hm', -⟩
    · exact hg
    · exact hs.nonempty m hm'
  · -- Old members are apart from each other, and those that are left are apart from the new one.
    intro a ha b hb hlt
    have ha' := (hmem a).mp ha
    have hb' := (hmem b).mp hb
    have hab := hs.eq_or_apart (a := a) (b := b)
    have hna := hs.nonempty a
    have hnb := hs.nonempty b
    grind

/-- An insertion adds the cuts of the interval, and no others. -/
theorem covers_insert (hs : Normal s.cmp s.members) (hr : Cut.lt s.cmp r.lower r.upper)
    (c : Cut α) :
    Covers s.cmp (s.insert r).members c ↔ Covers s.cmp s.members c ∨ r.Spans s.cmp c := by
  obtain ⟨g, -, hmem, hap, hrg, hgr⟩ := mem_insert hs hr
  constructor
  · rintro ⟨x, hx, hspan⟩
    rcases (hmem x).mp hx with rfl | ⟨hx', -⟩
    · exact (hgr c hspan).symm
    · exact Or.inl ⟨x, hx', hspan⟩
  · rintro (⟨m, hm, hspan⟩ | hspan)
    · rcases hap m hm with h | h | ⟨hlow, hup⟩
      · exact ⟨m, (hmem m).mpr (Or.inr ⟨hm, Or.inl h⟩), hspan⟩
      · exact ⟨m, (hmem m).mpr (Or.inr ⟨hm, Or.inr h⟩), hspan⟩
      · -- This member was dropped, since the new one has all of it.
        refine ⟨g, (hmem g).mpr (Or.inl rfl), ?_⟩
        unfold Interval.Spans at hspan ⊢
        grind
    · exact ⟨g, (hmem g).mpr (Or.inl rfl), hrg c hspan⟩

/-! ### Erasing -/

omit [Std.TransCmp s.cmp] in
@[simp] theorem keepAfter_cmp (m : Interval α) : (s.keepAfter r m).cmp = s.cmp := by
  unfold keepAfter
  split <;> simp

omit [Std.TransCmp s.cmp] in
@[simp] theorem trimBefore_cmp : (s.trimBefore r).cmp = s.cmp := by
  unfold trimBefore
  split
  · rfl
  · split <;> simp

omit [Std.TransCmp s.cmp] in
@[simp] theorem trimAfter_cmp : (s.trimAfter r).cmp = s.cmp := by
  unfold trimAfter
  split <;> simp

omit [Std.TransCmp s.cmp] in
@[simp] theorem erase_cmp : (s.erase r).cmp = s.cmp := by
  simp [erase]

/-- The members after the part of `m` past the end of `r` is stored. -/
theorem mem_keepAfter (hs : Increasing s.cmp s.members) (m x : Interval α) :
    x ∈ (s.keepAfter r m).members ↔
      (r.upper.isBounded ∧ Cut.lt s.cmp r.upper m.upper) ∧ x = ⟨r.upper, m.upper⟩ ∨
        x ∈ s.members ∧ (r.upper.isBounded ∧ Cut.le s.cmp r.upper m.upper →
          Cut.same s.cmp x.lower r.upper = false) := by
  unfold keepAfter
  by_cases hk : (r.upper.isBounded && Cut.le s.cmp r.upper m.upper) = true
  · rw [if_pos hk, mem_store hs]
    rw [Bool.and_eq_true] at hk
    grind
  · rw [if_neg hk]
    rw [Bool.and_eq_true] at hk
    grind

/-- Storing what is left of a member after the interval keeps the order of the lower cuts. -/
theorem increasing_keepAfter (hs : Increasing s.cmp s.members) (m : Interval α) :
    Increasing s.cmp (s.keepAfter r m).members := by
  unfold keepAfter
  split
  · exact increasing_store hs _
  · exact hs

instance (m : Interval α) : Std.TransCmp (s.keepAfter r m).cmp := by
  rw [keepAfter_cmp]
  infer_instance

/-- A cut with a cut before it and one after it is bounded. -/
theorem isBounded_of_lt_of_lt {a b c : Cut α} (hab : Cut.lt s.cmp a b) (hbc : Cut.lt s.cmp b c) :
    b.isBounded := by
  cases hb : b.isBounded with
  | true => rfl
  | false =>
    obtain rfl := Cut.eq_top_of_lt hab hb
    have htop : Cut.le s.cmp c .top := Cut.le_top c
    grind

/-- The member that starts before `r` and reaches it is cut down to what lies on either side of
    `r`. -/
theorem mem_trimBefore (hs : Normal s.cmp s.members) (hr : Cut.lt s.cmp r.lower r.upper)
    {m : Interval α} (hm : s.before? r.lower = some m) (hreach : Cut.le s.cmp r.lower m.upper)
    (x : Interval α) :
    x ∈ (s.trimBefore r).members ↔
      x = ⟨m.lower, r.lower⟩ ∨ Cut.lt s.cmp r.upper m.upper ∧ x = ⟨r.upper, m.upper⟩ ∨
        x ∈ s.members ∧ x ≠ m := by
  obtain ⟨hmem, hlower, -⟩ := before?_eq_some hs hm
  -- `keepAfter` asks for a bounded cut; where there is a part past `r`, its end is one.
  have hbounded : Cut.lt s.cmp r.upper m.upper → r.upper.isBounded := isBounded_of_lt_of_lt hr
  have hap : x ∈ s.members → x = m ∨ _ := fun hx => hs.eq_or_apart hx hmem
  have hne := hs.nonempty m hmem
  have hnx := hs.nonempty x
  unfold trimBefore
  simp only [hm, hreach, if_true]
  rw [mem_store (by simpa using increasing_keepAfter hs.increasing m), mem_keepAfter hs.increasing]
  simp only [keepAfter_cmp]
  grind

/-- So does cutting the member before the interval. -/
theorem increasing_trimBefore (hs : Increasing s.cmp s.members) :
    Increasing s.cmp (s.trimBefore r).members := by
  unfold trimBefore
  split
  · exact hs
  · rename_i m _
    split
    · simpa using
        increasing_store (s := s.keepAfter r m) (by simpa using increasing_keepAfter hs m) _
    · exact hs

/-- Outside of `r`, the two parts of the member that starts before `r` span what the member
    spans. -/
theorem covers_trimBefore (hs : Normal s.cmp s.members) (hr : Cut.lt s.cmp r.lower r.upper)
    {m : Interval α} (hbefore : s.before? r.lower = some m) (hreach : Cut.le s.cmp r.lower m.upper)
    {c : Cut α} (hc : ¬ r.Spans s.cmp c) :
    Covers s.cmp (s.trimBefore r).members c ↔ Covers s.cmp s.members c := by
  obtain ⟨hm, hlower, -⟩ := before?_eq_some hs hbefore
  have hmem := mem_trimBefore hs hr hbefore hreach
  constructor
  · rintro ⟨x, hx, hspan⟩
    rcases (hmem x).mp hx with rfl | ⟨hlt, rfl⟩ | ⟨hx', -⟩
    · refine ⟨m, hm, ?_⟩
      unfold Interval.Spans at hspan ⊢
      grind
    · refine ⟨m, hm, ?_⟩
      unfold Interval.Spans at hspan ⊢
      grind
    · exact ⟨x, hx', hspan⟩
  · rintro ⟨x, hx, hspan⟩
    by_cases hxm : x = m
    · -- A cut of `m` outside of `r` is in the part before `r` or in the one after it.
      subst hxm
      unfold Interval.Spans at hspan hc
      by_cases hbelow : Cut.lt s.cmp c r.lower
      · exact ⟨_, (hmem ⟨x.lower, r.lower⟩).mpr (Or.inl rfl), hspan.1, hbelow⟩
      · have hafter : Cut.le s.cmp r.upper c := by grind
        have hpast : Cut.lt s.cmp r.upper x.upper := by grind
        exact ⟨_, (hmem ⟨r.upper, x.upper⟩).mpr (Or.inr (Or.inl ⟨hpast, rfl⟩)), hafter, hspan.2⟩
    · exact ⟨x, (hmem x).mpr (Or.inr (Or.inr ⟨hx, hxm⟩)), hspan⟩

/-- Trimming the member before `r` leaves no member that starts before `r` and goes on into it.  It
    takes away nothing outside of `r`. -/
theorem trimBefore_spec (hs : Normal s.cmp s.members) (hr : Cut.lt s.cmp r.lower r.upper) :
    Normal s.cmp (s.trimBefore r).members ∧
      (∀ x ∈ (s.trimBefore r).members, Cut.lt s.cmp x.lower r.lower →
        Cut.le s.cmp x.upper r.lower) ∧
      ∀ c, ¬ r.Spans s.cmp c →
        (Covers s.cmp (s.trimBefore r).members c ↔ Covers s.cmp s.members c) := by
  cases hbefore : s.before? r.lower with
  | none =>
    have hnone := before?_eq_none hbefore
    simp only [trimBefore, hbefore]
    exact ⟨hs, by grind, fun c _ => trivial⟩
  | some m =>
    obtain ⟨hm, hlower, hlast⟩ := before?_eq_some hs hbefore
    by_cases hreach : Cut.le s.cmp r.lower m.upper
    · have hmem := mem_trimBefore hs hr hbefore hreach
      refine ⟨(increasing_trimBefore hs.increasing).normal ?_ ?_, ?_, ?_⟩
      · intro x hx
        have hx' := (hmem x).mp hx
        have hne := hs.nonempty x
        grind
      · -- The pieces of `m` are apart from what `m` is apart from.
        intro a ha b hb hlt
        have ha' := (hmem a).mp ha
        have hb' := (hmem b).mp hb
        have hab := hs.eq_or_apart (a := a) (b := b)
        have ham := hs.eq_or_apart (a := a) (b := m)
        have hbm := hs.eq_or_apart (a := b) (b := m)
        have hna := hs.nonempty a
        have hnb := hs.nonempty b
        grind
      · intro x hx hlt
        have hx' := (hmem x).mp hx
        have hxm := hlast x
        grind
      · exact fun c hc => covers_trimBefore hs hr hbefore hreach hc
    · simp only [trimBefore, hbefore, hreach]
      refine ⟨hs, ?_, fun c _ => Iff.rfl⟩
      intro x hx hlt
      have hxm := hlast x hx hlt
      grind

/-- What is left of a set in which no member crosses the start of `r`, once the last member that
    starts in `r` is cut at the end of `r` and the members that start in `r` are dropped. -/
theorem mem_trimAfter_dropBetween (hs : Increasing s.cmp s.members) (x : Interval α) :
    x ∈ ((s.trimAfter r).dropBetween r.lower r.upper).members ↔
      (∃ m, s.floor? r.upper = some m ∧ (r.upper.isBounded ∧ Cut.lt s.cmp r.upper m.upper) ∧
        x = ⟨r.upper, m.upper⟩) ∨
      x ∈ s.members ∧ (Cut.lt s.cmp x.lower r.lower ∨ Cut.le s.cmp r.upper x.lower) ∧
        ∀ m, s.floor? r.upper = some m → r.upper.isBounded ∧ Cut.le s.cmp r.upper m.upper →
          Cut.same s.cmp x.lower r.upper = false := by
  rw [mem_dropBetween]
  simp only [trimAfter_cmp]
  unfold trimAfter
  cases s.floor? r.upper with
  | none => grind
  | some m =>
    simp only [mem_keepAfter hs]
    grind

/-- The second half of erasing ends in normal form, provided that no member reaches into the
    interval from before. -/
theorem normal_trimAfter_dropBetween (hs : Normal s.cmp s.members)
    (hr : Cut.lt s.cmp r.lower r.upper)
    (hcross : ∀ x ∈ s.members, Cut.lt s.cmp x.lower r.lower → Cut.le s.cmp x.upper r.lower) :
    Normal s.cmp ((s.trimAfter r).dropBetween r.lower r.upper).members := by
  have hinc : Increasing s.cmp (s.trimAfter r).members := by
    unfold trimAfter
    split
    · exact hs.increasing
    · exact increasing_keepAfter hs.increasing _
  have hinc' : Increasing s.cmp ((s.trimAfter r).dropBetween r.lower r.upper).members :=
    hinc.filter _
  refine hinc'.normal ?_ ?_
  · intro x hx
    rcases (mem_trimAfter_dropBetween hs.increasing x).mp hx with ⟨m, -, ⟨-, hlt⟩, rfl⟩ | ⟨hx', -⟩
    · exact hlt
    · exact hs.nonempty x hx'
  · intro a ha b hb hlt
    rcases (mem_trimAfter_dropBetween hs.increasing a).mp ha with ⟨m, hm, -, rfl⟩ | ⟨ha', hstart, -⟩
    · -- What comes after the end of `r` comes after `m`, of which `a` is the rest.
      obtain ⟨hm', hlower, -⟩ := floor?_eq_some hs hm
      rcases (mem_trimAfter_dropBetween hs.increasing b).mp hb with ⟨m', hm', -, rfl⟩ | ⟨hb', -⟩
      · grind
      · have hbm := hs.eq_or_apart hb' hm'
        have hnb := hs.nonempty b hb'
        grind
    · rcases (mem_trimAfter_dropBetween hs.increasing b).mp hb with ⟨m, hm, -, rfl⟩ | ⟨hb', -⟩
      · have ha'' := hcross a ha'
        grind
      · have hab := hs.eq_or_apart ha' hb'
        have hna := hs.nonempty a ha'
        have hnb := hs.nonempty b hb'
        grind

/-- The second half of erasing takes away what the interval spans, under the same provision. -/
theorem covers_trimAfter_dropBetween (hs : Normal s.cmp s.members)
    (hr : Cut.lt s.cmp r.lower r.upper)
    (hcross : ∀ x ∈ s.members, Cut.lt s.cmp x.lower r.lower → Cut.le s.cmp x.upper r.lower)
    (c : Cut α) :
    Covers s.cmp ((s.trimAfter r).dropBetween r.lower r.upper).members c ↔
      Covers s.cmp s.members c ∧ ¬ r.Spans s.cmp c := by
  have hmem := mem_trimAfter_dropBetween (r := r) hs.increasing
  constructor
  · rintro ⟨x, hx, hspan⟩
    rcases (hmem x).mp hx with ⟨m, hm, -, rfl⟩ | ⟨hx', hstart, -⟩
    · obtain ⟨hm', hlower, -⟩ := floor?_eq_some hs hm
      unfold Interval.Spans at hspan ⊢
      exact ⟨⟨m, hm', by unfold Interval.Spans; grind⟩, by grind⟩
    · have hx'' := hcross x hx'
      refine ⟨⟨x, hx', hspan⟩, ?_⟩
      unfold Interval.Spans at hspan ⊢
      grind
  · rintro ⟨⟨x, hx, hspan⟩, hout⟩
    have hx' := hcross x hx
    unfold Interval.Spans at hspan hout
    by_cases hstay : x ∈ ((s.trimAfter r).dropBetween r.lower r.upper).members
    · exact ⟨x, hstay, hspan⟩
    · -- A member that goes and spans a cut outside of `r` is the one whose rest is kept.
      rw [hmem] at hstay
      -- No member crosses the start of `r`, so the cut is past the end of `r`.
      have hbefore : Cut.le s.cmp r.upper c ∧ Cut.le s.cmp x.lower r.upper := by grind
      cases hfloor : s.floor? r.upper with
      | none =>
        have hnone := floor?_eq_none hfloor x hx
        grind
      | some m =>
        obtain ⟨-, hlower, hlast⟩ := floor?_eq_some hs hfloor
        have hxm : x = m := by
          have h := hlast x hx hbefore.2
          grind
        subst hxm
        have hpast : Cut.lt s.cmp r.upper x.upper := by grind
        refine ⟨⟨r.upper, x.upper⟩, (hmem _).mpr (Or.inl ⟨x, hfloor, ⟨?_, hpast⟩, rfl⟩), ?_⟩
        · exact isBounded_of_lt_of_lt hr hpast
        · exact ⟨hbefore.1, hspan.2⟩

instance : Std.TransCmp (s.trimBefore r).cmp := by
  rw [trimBefore_cmp]
  infer_instance

/-- Erasing keeps the members in normal form. -/
theorem normal_erase (hs : Normal s.cmp s.members) (hr : Cut.lt s.cmp r.lower r.upper) :
    Normal s.cmp (s.erase r).members := by
  obtain ⟨hnormal, hcross, -⟩ := trimBefore_spec hs hr
  have h := normal_trimAfter_dropBetween (s := s.trimBefore r) (r := r)
  simp only [trimBefore_cmp] at h
  exact h hnormal hr hcross

/-- Erasing takes the cuts of the interval away, and no others. -/
theorem covers_erase (hs : Normal s.cmp s.members) (hr : Cut.lt s.cmp r.lower r.upper) (c : Cut α) :
    Covers s.cmp (s.erase r).members c ↔ Covers s.cmp s.members c ∧ ¬ r.Spans s.cmp c := by
  obtain ⟨hnormal, hcross, hcovers⟩ := trimBefore_spec hs hr
  have h := covers_trimAfter_dropBetween (s := s.trimBefore r) (r := r)
  simp only [trimBefore_cmp] at h
  rw [show s.erase r = ((s.trimBefore r).trimAfter r).dropBetween r.lower r.upper from rfl,
    h hnormal hr hcross c]
  constructor
  · rintro ⟨hcov, hout⟩
    exact ⟨(hcovers c hout).mp hcov, hout⟩
  · rintro ⟨hcov, hout⟩
    exact ⟨(hcovers c hout).mpr hcov, hout⟩

/-! ### Erasing from a single member -/

/-- The part of a member past the end of `r` is stored when there is one. -/
theorem keepAfter_of_lt {m : Interval α} (hr : Cut.lt s.cmp r.lower r.upper)
    (h : Cut.lt s.cmp r.upper m.upper) : s.keepAfter r m = s.store ⟨r.upper, m.upper⟩ := by
  have hle : Cut.le s.cmp r.upper m.upper := by grind
  unfold keepAfter
  rw [isBounded_of_lt_of_lt hr h, hle]
  rfl

/-- When there is none, and no member starts where `r` ends, nothing changes. -/
theorem keepAfter_of_not_lt {m : Interval α} (h : ¬ Cut.lt s.cmp r.upper m.upper)
    (hs : ∀ x ∈ s.members, Cut.same s.cmp x.lower r.upper = false) : s.keepAfter r m = s := by
  have hempty : Interval.isEmpty s.cmp ⟨r.upper, m.upper⟩ = true := by
    rw [← Bool.not_eq_false, Interval.isEmpty_eq_false_iff]
    exact h
  have hfilter : (s.members.filter fun x => !Cut.same s.cmp x.lower r.upper) = s.members := by
    rw [List.filter_eq_self]
    intro x hx
    rw [hs x hx]
    rfl
  unfold keepAfter store
  rw [hempty, if_pos rfl, hfilter, ite_self]

/-- What is left of a single member that overlaps `r`: the part before `r` and the part after it. -/
theorem erase_singleton {cmp : α → α → Ordering} [Std.TransCmp cmp] {m : Interval α}
    (hr : Cut.lt cmp r.lower r.upper) (hmr : Cut.lt cmp m.lower r.upper)
    (hrm : Cut.lt cmp r.lower m.upper) :
    (erase ⟨cmp, [m]⟩ r).members =
      (if Cut.lt cmp m.lower r.lower then [⟨m.lower, r.lower⟩] else []) ++
        (if Cut.lt cmp r.upper m.upper then [⟨r.upper, m.upper⟩] else []) := by
  have hself : ∀ c : Cut α, Cut.compare cmp c c = .eq := fun c => Std.ReflCmp.compare_self
  have hgt : Cut.compare cmp r.upper m.lower = .gt := (Cut.compare_eq_gt_iff _ _).mpr hmr
  have hmr' : Cut.le cmp m.lower r.upper := by grind
  have hrm' : Cut.le cmp r.lower m.upper := by grind
  have hrefl : Cut.le cmp r.upper r.upper := Cut.le_refl _
  have hirrefl : Cut.lt cmp r.upper r.upper = false := by grind
  have hnone : Cut.same cmp m.lower r.upper = false := by grind
  by_cases hleft : Cut.lt cmp m.lower r.lower
  · have hL : Interval.isEmpty cmp ⟨m.lower, r.lower⟩ = false :=
      (Interval.isEmpty_eq_false_iff _).mpr hleft
    have hout : Cut.le cmp r.lower m.lower = false := by grind
    by_cases hright : Cut.lt cmp r.upper m.upper
    · -- Both parts are stored, and the one after `r` once more.
      have hR : Interval.isEmpty cmp ⟨r.upper, m.upper⟩ = false :=
        (Interval.isEmpty_eq_false_iff _).mpr hright
      have hbefore : trimBefore ⟨cmp, [m]⟩ r = ⟨cmp, [⟨m.lower, r.lower⟩, ⟨r.upper, m.upper⟩]⟩ := by
        simp [trimBefore, before?, hleft, hrm', keepAfter_of_lt (s := ⟨cmp, [m]⟩) hr hright, store,
          hR, hL, put, hself, hgt]
      simp [erase, hbefore, trimAfter, floor?, hmr', hrefl, keepAfter_of_lt
        (s := ⟨cmp, [⟨m.lower, r.lower⟩, ⟨r.upper, m.upper⟩]⟩) (m := ⟨r.upper, m.upper⟩) hr hright,
        store, hR, put, hself, hgt, dropBetween, hout, hirrefl, hleft, hright]
    · -- Only the part before `r` is stored; it ends before `r` does.
      have hpast : ¬ Cut.lt cmp r.upper r.lower := by grind
      have hbefore : trimBefore ⟨cmp, [m]⟩ r = ⟨cmp, [⟨m.lower, r.lower⟩]⟩ := by
        simp [trimBefore, before?, hleft, hrm', keepAfter_of_not_lt (s := ⟨cmp, [m]⟩) hright
          (by simpa using hnone), store, hL, put, hself]
      simp [erase, hbefore, trimAfter, floor?, hmr', keepAfter_of_not_lt
        (s := ⟨cmp, [⟨m.lower, r.lower⟩]⟩) (m := ⟨m.lower, r.lower⟩) hpast (by simpa using hnone),
        dropBetween, hout, hleft, hright]
  · have hin : Cut.le cmp r.lower m.lower := by grind
    have hbefore : trimBefore ⟨cmp, [m]⟩ r = ⟨cmp, [m]⟩ := by
      simp [trimBefore, before?, hleft]
    by_cases hright : Cut.lt cmp r.upper m.upper
    · have hR : Interval.isEmpty cmp ⟨r.upper, m.upper⟩ = false :=
        (Interval.isEmpty_eq_false_iff _).mpr hright
      simp [erase, hbefore, trimAfter, floor?, hmr', keepAfter_of_lt (s := ⟨cmp, [m]⟩) hr hright,
        store, hR, put, hgt, dropBetween, hin, hmr, hirrefl, hleft, hright]
    · simp [erase, hbefore, trimAfter, floor?, hmr', keepAfter_of_not_lt (s := ⟨cmp, [m]⟩) hright
        (by simpa using hnone), dropBetween, hin, hmr, hleft, hright]

/-- Inserting into the set without members. -/
theorem insert_empty {cmp : α → α → Ordering} [Std.TransCmp cmp] (hr : Cut.lt cmp r.lower r.upper) :
    (empty cmp).insert r = ⟨cmp, [r]⟩ := by
  have hr' : r.isEmpty cmp = false := (Interval.isEmpty_eq_false_iff _).mpr hr
  simp [insert, empty, extendLeft, extendRight, before?, floor?, dropBetween, store, put, hr']

/-- Inserting one interval after another. -/
theorem foldl_insert_spec {cmp : α → α → Ordering} [Std.TransCmp cmp] {is : List (Interval α)}
    (his : ∀ i ∈ is, Cut.lt cmp i.lower i.upper) {s : IntervalSet α} (hcmp : s.cmp = cmp)
    (hs : Normal cmp s.members) :
    (is.foldl insert s).cmp = cmp ∧ Normal cmp (is.foldl insert s).members ∧
      ∀ c, Covers cmp (is.foldl insert s).members c ↔ Covers cmp s.members c ∨ Covers cmp is c := by
  induction is generalizing s with
  | nil => exact ⟨hcmp, hs, fun c => (or_iff_left (not_covers_nil c)).symm⟩
  | cons i is ih =>
    rw [List.forall_mem_cons] at his
    subst hcmp
    obtain ⟨hcmp', hnormal, hcovers⟩ := ih his.2 insert_cmp (normal_insert hs his.1)
    refine ⟨hcmp', hnormal, fun c => ?_⟩
    rw [List.foldl_cons, hcovers, covers_insert hs his.1, covers_cons, or_assoc]

end Allotment.IntervalSet
