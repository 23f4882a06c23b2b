import Allotment.Proofs.Pool.Runs

namespace Allotment.Pool

/-!
# When a request of a pool is met

A pool decides by cuts: whether its bounds enclose the half-open form of a range, whether a member
of the set of the claimed values overlaps it, whether a single member encloses it.  In terms of
values these are the questions that one would ask:

* `Admissible` — a range that a pool can be asked about;
* `Admissible.vet_eq`, `admissible_of_vet` — the ranges that pass are the admissible ones;
* `intersects_iff`, `encloses_iff` — whether some value of a range is claimed, and whether all of
  them are;
* `run_answer_iff` — when claiming, releasing and giving new labels succeed, and that a request that
  fails leaves the pool as it was.
-/

universe u v

variable {α : Type u} {ρ : Type u} {cmp : α → α → Ordering}

/-- A range of values that lie in the bounds `b`, with a place to start and at least one value,
    whose half-open form the check lets pass. -/
structure Admissible (b : Range α) (d : Domain α) (check : Range α → Option ρ) (r : Range α) :
    Prop where
  valid : r.isValid
  bounded : r.lower.isBounded
  inhabited : ∃ v, r.contains v
  inside : ∀ v, r.contains v → b.contains v
  passes : check (r.canonical d) = none

variable [Std.TransCmp cmp] {p : Pool α ρ} {b c r : Range α} {d : Domain α}
  {check : Range α → Option ρ}

/-- A range and its half-open form contain the same values. -/
theorem contains_canonical (hd : d.Lawful cmp) (hr : r.cmp = cmp) (v : α) :
    (r.canonical d).contains v = r.contains v := by
  subst hr
  exact Interval.contains_canonical hd r.toInterval v

/-- It does not matter in which form the bounds are given. -/
theorem admissible_canonical_iff (hd : d.Lawful cmp) (hb : b.cmp = cmp) :
    Admissible (b.canonical d) d check r ↔ Admissible b d check r := by
  have hinside : (∀ v, r.contains v → (b.canonical d).contains v) ↔
      ∀ v, r.contains v → b.contains v := by
    simp only [contains_canonical hd hb]
  constructor
  · intro h
    exact ⟨h.valid, h.bounded, h.inhabited, hinside.mp h.inside, h.passes⟩
  · intro h
    exact ⟨h.valid, h.bounded, h.inhabited, hinside.mpr h.inside, h.passes⟩

/-! ### What passes -/

/-- The half-open form of an admissible range fits into the pool.  It has a value, so it is not
    empty; it starts at one of its values, and the bounds cannot end before it does, since they have
    all its values. -/
theorem Admissible.fitting (hp : p.Sound cmp) (hr : r.cmp = cmp)
    (h : Admissible p.bounds p.domain check r) : Fitting cmp p (r.canonical p.domain) := by
  have hc : (r.canonical p.domain).cmp = cmp := hr
  have hspans : ∀ v, (r.canonical p.domain).toInterval.Spans cmp (.below v) ↔ r.contains v := by
    intro v
    rw [← Range.contains_iff_spans hc, contains_canonical hp.lawful hr]
  obtain ⟨v, hv⟩ := h.inhabited
  -- A value of the range lies between the two cuts of its half-open form.
  have hne : Cut.lt cmp (r.canonical p.domain).lower (r.canonical p.domain).upper := by
    have hspan := (hspans v).mpr hv
    unfold Interval.Spans at hspan
    grind
  refine ⟨hc, Interval.halfOpen_canonical _, hne, Interval.encloses_of_spans hp.halfOpen ?_ hne ?_⟩
  · exact (Cut.halfOpen_canonical r.lower).exists_below (Cut.canonical_ne_bottom h.bounded) hne
  · intro w hw
    rw [← Range.contains_iff_spans hp.order]
    exact h.inside w ((hspans w).mp hw)

/-- An admissible range passes in half-open form. -/
theorem Admissible.vet_eq (hp : p.Sound cmp) (hr : r.cmp = cmp)
    (h : Admissible p.bounds p.domain p.check r) : p.vet (some r) = .ok (r.canonical p.domain) :=
  vet_eq_of_fitting hp h.valid (h.fitting hp hr) h.passes

/-- The ranges that pass are the admissible ones. -/
theorem admissible_of_vet (hp : p.Sound cmp) (hr : r.cmp = cmp) (h : p.vet (some r) = .ok c) :
    c = r.canonical p.domain ∧ Admissible p.bounds p.domain p.check r := by
  have hbounded := isBounded_of_fit hp hr (fit_of_vet h).1
  obtain ⟨rfl, hvalid, hpasses⟩ := eq_canonical_of_vet h
  obtain ⟨hc, -⟩ := fitting_of_vet hp (r := some r) (Range.Optional.readIn_some hr) h
  -- What passes starts below a value, which is one of the range.
  obtain ⟨v, hv⟩ := hc.start hp
  refine ⟨rfl, hvalid, hbounded, ⟨v, ?_⟩, ?_, hpasses⟩
  · rw [← contains_canonical hp.lawful hr]
    unfold Range.contains
    rw [hc.order]
    exact Interval.contains_of_lower_eq hv hc.nonempty
  · intro w hw
    rw [← contains_canonical hp.lawful hr, Range.contains_iff_spans hc.order] at hw
    rw [Range.contains_iff_spans hp.order]
    have henclosed := (Interval.encloses_iff _ _).mp hc.enclosed
    unfold Interval.Spans at hw ⊢
    grind

/-- Each change of a range asks first whether the range passes, so one that succeeds is about an
    admissible range. -/
theorem admissible_of_answer {β : Type v} (hp : p.Sound cmp) (hr : r.cmp = cmp)
    {f : Pool α ρ → Range α → Attempt (Pool α ρ) (ClaimError α ρ) β} {answer : β}
    (h : ((Attempt.ofExcept p (p.vet (some r))).andThen f).answer = .ok answer) :
    Admissible p.bounds p.domain p.check r :=
  (admissible_of_vet hp hr (vet_eq_of_answer h)).2

/-! ### Claimed values of a range -/

/-- A fitting range overlaps the set of the claimed values exactly when one of its values is
    claimed.  Where the two share a cut, a claim has the cut, and what two half-open ranges share
    starts at a value. -/
theorem intersects_iff (hp : p.Sound cmp) (hc : Fitting cmp p c) :
    p.claimed.set.intersects (some c) = true ↔ ∃ v, c.contains v ∧ p.isClaimed v := by
  constructor
  · intro h
    obtain ⟨m, hm, hover⟩ := (intersects_iff_overlaps hp hc).mp h
    rw [Interval.overlaps_iff] at hover
    -- The later of the two starts is a cut of both.
    obtain ⟨k, hmk, hck⟩ : ∃ k, m.Spans cmp k ∧ c.toInterval.Spans cmp k := by
      unfold Interval.Spans
      by_cases hle : Cut.le cmp m.lower c.lower
      · exact ⟨c.lower, by grind⟩
      · exact ⟨m.lower, by grind⟩
    obtain ⟨l, e, he, hek, -⟩ := (hp.covers k).mp ⟨m, hm, hmk⟩
    have he' := hp.fitting he
    have hapart : ¬ Interval.Apart cmp e.range.toInterval c.toInterval := fun h =>
      h.not_spans hek hck
    obtain ⟨v, hev, hcv⟩ := Interval.exists_spans_of_not_apart (he'.start hp)
      (hc.start hp) he'.nonempty hc.nonempty hapart
    exact ⟨v, (Range.contains_iff_spans hc.order v).mpr hcv,
      (hp.agree v).mpr ⟨e.labels, e, he, hev, rfl⟩⟩
  · rintro ⟨v, hcv, hclaimed⟩
    exact intersects_of_held hp hc ((Range.contains_iff_spans hc.order v).mp hcv)
      ((hp.agree v).mp hclaimed)

/-- When all values of a fitting range are claimed, all its cuts are: the cut above a value goes
    with the cut below it, in the range and in the claim that has the value. -/
theorem exists_held_of_isClaimed (hp : p.Sound cmp) (hc : Fitting cmp p c)
    (h : ∀ v, c.contains v → p.isClaimed v) {k : Cut α} (hk : c.toInterval.Spans cmp k) :
    ∃ l, Ledger.Held cmp p.claims k l := by
  have hbelow : ∀ v, c.toInterval.Spans cmp (.below v) →
      ∃ l, Ledger.Held cmp p.claims (.below v) l := by
    intro v hv
    exact (hp.agree v).mp (h v ((Range.contains_iff_spans hc.order v).mpr hv))
  cases k with
  | below v => exact hbelow v hk
  | above v =>
    -- Both ranges are half-open, so the cut above a value goes with the one below it.
    obtain ⟨l, e, he, hspan, hl⟩ := hbelow v ((hc.halfOpen.spans_above_iff v).mp hk)
    exact ⟨l, e, he, ((hp.fitting he).halfOpen.spans_above_iff v).mpr hspan, hl⟩
  | bottom =>
    obtain ⟨v, hv⟩ := hc.start hp
    have hle := hk.1
    rw [hv] at hle
    cases hle
  | top =>
    have hlt := hk.2
    have htop : Cut.le cmp c.upper .top := Cut.le_top _
    grind

/-- A single member of the set of the claimed values encloses a fitting range exactly when all its
    values are claimed, be it by several claims. -/
theorem encloses_iff (hp : p.Sound cmp) (hc : Fitting cmp p c) :
    p.claimed.set.encloses (some c) = true ↔ ∀ v, c.contains v → p.isClaimed v := by
  constructor
  · intro h v hv
    rw [Range.contains_iff_spans hc.order] at hv
    exact (hp.agree v).mpr (exists_held_of_encloses hp h hv)
  · intro h
    exact encloses_of_covers hp hc fun k hk => (hp.covers k).mpr
      (exists_held_of_isClaimed hp hc h hk)

/-! ### Answers -/

/-- A range is claimed exactly when it is admissible and none of its values is claimed. -/
theorem claimRange_answer_iff (hp : p.Sound cmp) (hr : r.cmp = cmp) (labels : Labels) :
    (p.claimRange (some r) labels).answer = .ok () ↔
      Admissible p.bounds p.domain p.check r ∧ ∀ v, r.contains v → p.isClaimed v = false := by
  have hanswer : Admissible p.bounds p.domain p.check r →
      ((p.claimRange (some r) labels).answer = .ok () ↔
        ∀ v, r.contains v → p.isClaimed v = false) := by
    intro hadm
    rw [claimRange_answer_of_vet hp (hadm.fitting hp hr) (hadm.vet_eq hp hr), ← Bool.not_eq_true,
      intersects_iff hp (hadm.fitting hp hr)]
    simp only [contains_canonical hp.lawful hr, not_exists, not_and, Bool.not_eq_true]
  constructor
  · intro h
    have hadm := admissible_of_answer hp hr h
    exact ⟨hadm, (hanswer hadm).mp h⟩
  · rintro ⟨hadm, hfree⟩
    exact (hanswer hadm).mpr hfree

/-- A range gets new labels exactly when it is admissible and all its values are claimed. -/
theorem relabelRange_answer_iff (hp : p.Sound cmp) (hr : r.cmp = cmp) (labels : Labels) :
    (p.relabelRange (some r) labels).answer = .ok () ↔
      Admissible p.bounds p.domain p.check r ∧ ∀ v, r.contains v → p.isClaimed v := by
  have hanswer : Admissible p.bounds p.domain p.check r →
      ((p.relabelRange (some r) labels).answer = .ok () ↔ ∀ v, r.contains v → p.isClaimed v) := by
    intro hadm
    rw [relabelRange_answer_of_vet hp (hadm.fitting hp hr) (hadm.vet_eq hp hr),
      encloses_iff hp (hadm.fitting hp hr)]
    simp only [contains_canonical hp.lawful hr]
  constructor
  · intro h
    have hadm := admissible_of_answer hp hr h
    exact ⟨hadm, (hanswer hadm).mp h⟩
  · rintro ⟨hadm, hclaimed⟩
    exact (hanswer hadm).mpr hclaimed

/-- A range can be released exactly when it is admissible. -/
theorem releaseRange_answer_iff (hp : p.Sound cmp) (hr : r.cmp = cmp) :
    (p.releaseRange (some r)).answer = .ok () ↔ Admissible p.bounds p.domain p.check r := by
  constructor
  · intro h
    exact admissible_of_answer hp hr h
  · intro hadm
    obtain ⟨p', hdone, -⟩ := release_fitting hp (hadm.fitting hp hr) (hadm.vet_eq hp hr)
    rw [hdone]
    rfl

omit [Std.TransCmp cmp] in
/-- What fails leaves the pool as it was. -/
theorem Settled.state_of_error {β : Type v} {passes : Range α → Prop} {about : β → α → Bool}
    {labels : Option Labels} {a : Attempt (Pool α ρ) (ClaimError α ρ) β}
    (h : Settled cmp passes about labels p a) {e : ClaimError α ρ} (he : a.answer = .error e) :
    a.state = p := by
  rcases h with ⟨e', rfl⟩ | ⟨answer, c, p', rfl, -⟩
  · rfl
  · cases he

/-- **When the requests of a pool succeed.**  Take any lawful domain, any bounds and first claims
    that a pool can be created with, any check, and the pool after any requests, met or refused.  A
    range of the order is claimed exactly when it is admissible and none of its values is claimed;
    it gets new labels exactly when it is admissible and all its values are claimed; it is released
    exactly when it is admissible.  A request that fails, also the search for a value to claim,
    leaves the pool exactly as it was. -/
theorem run_answer_iff (hd : d.Lawful cmp) (hb : b.cmp = cmp) {name : Text}
    {first : List (Option (Range α) × Labels)}
    (hfirst : ∀ e ∈ first, ∀ x, e.1 = some x → x.cmp = cmp) {errors : List (ClaimError α ρ)}
    (hcreate : create name (some b) (some d) check first = .ok (p, errors)) {qs : List (Request α)}
    (hqs : ∀ q ∈ qs, q.ReadIn cmp) {p' : Pool α ρ} (hrun : p.run qs = some p') (hr : r.cmp = cmp)
    (labels : Labels) :
    ((p'.claimRange (some r) labels).answer = .ok () ↔
      Admissible b d check r ∧ ∀ v, r.contains v → p'.isClaimed v = false) ∧
    ((p'.relabelRange (some r) labels).answer = .ok () ↔
      Admissible b d check r ∧ ∀ v, r.contains v → p'.isClaimed v) ∧
    ((p'.releaseRange (some r)).answer = .ok () ↔ Admissible b d check r) ∧
    ∀ q a e, q.ReadIn cmp → p'.perform q = some a → a.answer = .error e → a.state = p' := by
  obtain ⟨hsound, hbounds, hdomain, hcheck⟩ :=
    within_run (within_create hd hb hfirst hcreate) hqs hrun
  have hadm : Admissible p'.bounds p'.domain p'.check r ↔ Admissible b d check r := by
    rw [hbounds, hdomain, hcheck]
    exact admissible_canonical_iff hd hb
  rw [← hadm]
  refine ⟨claimRange_answer_iff hsound hr labels, relabelRange_answer_iff hsound hr labels,
    releaseRange_answer_iff hsound hr, ?_⟩
  intro q a e hq ha he
  exact (perform_cases hsound hq ha).state_of_error he

/-- A range with values of three claims that abut. -/
def sampleStretch : Range Int64 :=
  ⟨⟨.above 5, .above 9⟩, Order.int64⟩

/-- A stretch across three claims of the sample pool is relabelled at once. -/
theorem sampleStretch_answer_iff :
    ∃ p', samplePool.run sampleRequests = some p' ∧
      (p'.relabelRange (some sampleStretch) (sampleLabels "f")).answer.isOk ∧
      Admissible sampleBounds .int64 sampleCheck sampleStretch ∧
      (∀ v, sampleStretch.contains v → p'.isClaimed v) ∧
      ∀ q a e, q.ReadIn Order.int64 → p'.perform q = some a → a.answer = .error e →
        a.state = p' := by
  have hanswer : (samplePool.run sampleRequests).map (fun p' =>
      (p'.relabelRange (some sampleStretch) (sampleLabels "f")).answer.isOk) = some true := by cbv
  obtain ⟨p', hrun, hisOk⟩ := Option.map_eq_some_iff.mp hanswer
  obtain ⟨-, hrelabel, -, hfail⟩ := run_answer_iff Domain.lawful_int64 rfl readIn_sampleFirst
    create_samplePool readIn_sampleRequests hrun (r := sampleStretch) rfl (sampleLabels "f")
  have hok : (p'.relabelRange (some sampleStretch) (sampleLabels "f")).answer = .ok () := by
    cases h : (p'.relabelRange (some sampleStretch) (sampleLabels "f")).answer with
    | ok answer => rfl
    | error e =>
      rw [h] at hisOk
      cases hisOk
  obtain ⟨hadm, hclaimed⟩ := hrelabel.mp hok
  exact ⟨p', hrun, hisOk, hadm, hclaimed, hfail⟩

end Allotment.Pool
