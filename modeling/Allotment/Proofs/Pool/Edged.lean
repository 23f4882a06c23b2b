import Allotment.Proofs.Pool.Free

namespace Allotment.Pool

/-!
# Pools over some of the values

A domain may be lawful for some of its values only, as the addresses are for those without a zone.
A pool that is asked about such values alone never has a claim that starts or ends elsewhere: what
it holds changes only at such values, so that it is determined by them.  Then the pool answers as it
would if there were no others.

* `Edged`, `EndsAt`, `Request.On` — a pool, a range and a request with edges at certain values only;
* `edged_create`, `Edged.perform`, `Edged.run` — a new pool is such a pool, and such requests leave
  such pools;
* `Edged.intersects_iff`, `Edged.encloses_iff` — whether some value of a range is claimed, and
  whether all of them are;
* `Edged.claimRange_answer_iff`, `Edged.relabelRange_answer_iff` — when a range is claimed or gets
  new labels.
-/

universe u

variable {α : Type u} {ρ : Type u} {cmp : α → α → Ordering} {P : α → Prop}

/-- A balanced pool over a domain that is lawful for the values of `P`, whose bounds and claims
    change only at such values. -/
structure Edged (cmp : α → α → Ordering) (P : α → Prop) (p : Pool α ρ) : Prop
    extends Balanced cmp p where
  lawful : p.domain.LawfulOn cmp P
  nonempty : Cut.lt cmp p.bounds.lower p.bounds.upper
  edgedBounds : Cut.EdgedBy cmp P (p.bounds.toInterval.region cmp)
  edgedClaimed : Cut.EdgedBy cmp P (IntervalSet.region cmp p.claimed.set.members)

/-- A range in the order `cmp` whose endpoints are values of `P`.  It need not have any. -/
structure EndsAt (cmp : α → α → Ordering) (P : α → Prop) (r : Range α) : Prop where
  order : r.cmp = cmp
  lower : ∀ v, r.lower.endpoint? = some v → P v
  upper : ∀ v, r.upper.endpoint? = some v → P v

/-- A range that is bounded below and ends at such values ends at such values. -/
theorem endsAt_of_grounded {r : Range α} (hr : Recipe.Grounded cmp P r) : EndsAt cmp P r :=
  ⟨hr.order, hr.lower, hr.upper⟩

theorem endsAt_of_order {r : Range α} (hr : r.cmp = cmp) : EndsAt cmp (fun _ => True) r :=
  ⟨hr, fun _ _ => trivial, fun _ _ => trivial⟩

/-- A request about values of `P`, or about ranges between them. -/
def Request.On (cmp : α → α → Ordering) (P : α → Prop) : Request α → Prop
  | .claim v _ | .release v | .relabel v _ => P v
  | .claimRange r _ | .releaseRange r | .relabelRange r _ => ∀ x, r = some x → EndsAt cmp P x
  | .claimFirst _ => True

/-- A request on some of the values is read in their order. -/
theorem Request.On.readIn {q : Request α} (hq : q.On cmp P) : q.ReadIn cmp := by
  cases q with
  | claimRange r | releaseRange r | relabelRange r => exact fun x hx => (hq x hx).order
  | claim | claimFirst | release | relabel => trivial

/-- Requests that are read in the order are about all values. -/
theorem Request.ReadIn.on {q : Request α} (hq : q.ReadIn cmp) : q.On cmp fun _ => True := by
  cases q with
  | claimRange r | releaseRange r | relabelRange r => exact fun x hx => endsAt_of_order (hq x hx)
  | claim | claimFirst | release | relabel => trivial

variable [Std.TransCmp cmp] {p : Pool α ρ} {c r : Range α}

/-! ### What requests leave -/

/-- A change of a range with edges at values of `P` leaves a pool with such edges. -/
theorem Edged.changed (hp : p.Edged cmp P) {labels : Option Labels} {p' : Pool α ρ}
    (h : Changed cmp c labels p p') (hc : Cut.EdgedBy cmp P (c.toInterval.region cmp)) :
    p'.Edged cmp P := by
  have hclaimed : Cut.EdgedBy cmp P (IntervalSet.region cmp p'.claimed.set.members) := by
    refine hc.of_iff (f := fun x y => x ∧ labels.isSome ∨ ¬ x ∧ y) hp.edgedClaimed (by simp)
      fun k => ?_
    rw [IntervalSet.mem_region, h.balanced.covers, h.rewritten.exists_held, ← hp.covers]
    rfl
  exact ⟨h.balanced, h.domain ▸ hp.lawful, h.bounds ▸ hp.nonempty, h.bounds ▸ hp.edgedBounds,
    hclaimed⟩

/-- What fits is the half-open form of what was asked for, and has its edges. -/
theorem Edged.edgedBy_of_fit (hp : p.Edged cmp P) (hr : EndsAt cmp P r)
    (h : p.fit (some r) = .ok c) : Cut.EdgedBy cmp P (c.toInterval.region cmp) := by
  have hgrounded : Recipe.Grounded cmp P r :=
    ⟨hr.order, isBounded_of_fit hp.toBalanced hr.order h, hr.lower, hr.upper⟩
  rw [(eq_canonical_of_fit h).1]
  exact hgrounded.edgedBy hp.lawful

omit [Std.TransCmp cmp] in
theorem grounded_singleton (hp : p.Balanced cmp) {v : α} (hv : P v) :
    Recipe.Grounded cmp P (p.singleton v) := by
  refine ⟨hp.order, rfl, ?_, ?_⟩
  · rintro w ⟨⟩
    exact hv
  · rintro w ⟨⟩
    exact hv

/-- The free values have the edges of the bounds and of the claimed values. -/
theorem Edged.edgedBy_unclaimed (hp : p.Edged cmp P) {free : Cell α}
    (hfree : p.unclaimed = .ok free) :
    Unclaimed cmp p free ∧ Cut.EdgedBy cmp P (IntervalSet.region cmp free.set.members) := by
  obtain ⟨free', hfree', hunclaimed⟩ := exists_unclaimed hp.toBalanced hp.nonempty
  obtain rfl := Except.ok.inj (hfree.symm.trans hfree')
  have hedged := hp.edgedBounds.sdiff hp.edgedClaimed
  rw [← hunclaimed.region] at hedged
  exact ⟨hunclaimed, hedged⟩

/-- The intervals of free values start at values of `P`. -/
theorem Edged.exists_start [Std.LawfulEqCmp cmp] (hp : p.Edged cmp P) {free : Cell α}
    (hfree : p.unclaimed = .ok free) {m : Interval α} (hm : m ∈ free.set.members) :
    ∃ v, P v ∧ m.lower = .below v := by
  obtain ⟨hunclaimed, hedged⟩ := hp.edgedBy_unclaimed hfree
  obtain ⟨v, hv, hsame⟩ := hunclaimed.sound.normal.lower_of_edgedBy hedged hm
  exact ⟨v, hv, Cut.eq_of_same hsame⟩

/-- A request about values of `P` leaves a pool with edges at such values.  The search for a free
    value starts at one of them and climbs to others. -/
theorem Edged.perform [Std.LawfulEqCmp cmp] (hp : p.Edged cmp P) {q : Request α} (hq : q.On cmp P)
    {a : Attempt (Pool α ρ) (ClaimError α ρ) (Option α)} (h : p.perform q = some a) :
    a.state.Edged cmp P := by
  have hrange : ∀ {r : Option (Range α)}, (∀ x, r = some x → EndsAt cmp P x) →
      ∀ c labels p', p.Admits r c → Changed cmp c labels p p' → p'.Edged cmp P := by
    intro r hr c labels p' hadmits hchanged
    cases r with
    | none => cases hadmits
    | some x => exact hp.changed hchanged (hp.edgedBy_of_fit (hr x rfl) (fit_of_vet hadmits).1)
  have hread : ∀ {r : Option (Range α)}, (∀ x, r = some x → EndsAt cmp P x) →
      ∀ x, r = some x → x.cmp = cmp :=
    fun hr x hx => (hr x hx).order
  have hone : ∀ {v : α}, P v → ∀ x, some (p.singleton v) = some x → EndsAt cmp P x := by
    rintro v hv x ⟨⟩
    exact endsAt_of_grounded (grounded_singleton hp.toBalanced hv)
  cases q with
  | claim v l =>
    cases h
    exact (claim_cases hp.toBalanced v l).keeps (hrange (hone hq)) hp
  | claimRange r l =>
    cases h
    exact (claimRange_cases hp.toBalanced (hread hq) l).keeps (hrange hq) hp
  | claimFirst l =>
    obtain ⟨b, hb, rfl⟩ := Option.map_eq_some_iff.mp h
    refine (claimFirst_cases hp.lawful.next_mem hp.toBalanced ?_ l hb).keeps ?_ hp
    · -- The climbs start where intervals of free values do.
      intro free hfree m hm v hv
      obtain ⟨w, hw, hlower⟩ := hp.exists_start hfree hm
      rw [hlower] at hv
      obtain rfl := Option.some.inj hv
      exact hw
    · rintro c labels p' ⟨v, hv, hadmits⟩ hchanged
      exact hrange (hone hv) c labels p' hadmits hchanged
  | release v =>
    cases h
    exact (releaseRange_cases hp.toBalanced (hread (hone hq))).keeps (hrange (hone hq)) hp
  | releaseRange r =>
    cases h
    exact (releaseRange_cases hp.toBalanced (hread hq)).keeps (hrange hq) hp
  | relabel v l =>
    cases h
    exact (relabelRange_cases hp.toBalanced (hread (hone hq)) l).keeps (hrange (hone hq)) hp
  | relabelRange r l =>
    cases h
    exact (relabelRange_cases hp.toBalanced (hread hq) l).keeps (hrange hq) hp

/-- A run of requests about values of `P`; the bounds, the domain and the check stay. -/
theorem Edged.run [Std.LawfulEqCmp cmp] (hp : p.Edged cmp P) {qs : List (Request α)}
    (hqs : ∀ q ∈ qs, q.On cmp P) {p' : Pool α ρ} (h : p.run qs = some p') :
    p'.Edged cmp P ∧ p'.bounds = p.bounds ∧ p'.domain = p.domain ∧ p'.check = p.check := by
  constructor
  · induction qs generalizing p with
    | nil =>
      cases h
      exact hp
    | cons q qs ih =>
      obtain ⟨a, ha, hrest⟩ := Option.bind_eq_some_iff.mp h
      rw [List.forall_mem_cons] at hqs
      exact ih (hp.perform hqs.1 ha) hqs.2 hrest
  · -- The rest is kept by all changes, whatever their ends.
    have hframe := run_keeps
      (I := fun p' => p'.Balanced cmp ∧ p'.bounds = p.bounds ∧ p'.domain = p.domain ∧
        p'.check = p.check)
      (fun _ hp => hp.1)
      (fun _ _ _ _ hp _ hchanged =>
        ⟨hchanged.balanced, hchanged.bounds.trans hp.2.1, hchanged.domain.trans hp.2.2.1,
          hchanged.check.trans hp.2.2.2⟩)
      ⟨hp.toBalanced, rfl, rfl, rfl⟩ (fun q hq => (hqs q hq).readIn) h
    exact hframe.2

/-- A new pool has the edges of its bounds and of its first claims. -/
theorem edged_create {d : Domain α} (hd : d.LawfulOn cmp P) {b : Range α} (hb : EndsAt cmp P b)
    {name : Text} {check : Range α → Option ρ} {first : List (Option (Range α) × Labels)}
    (hfirst : ∀ e ∈ first, ∀ x, e.1 = some x → EndsAt cmp P x) {errors : List (ClaimError α ρ)}
    (h : create name (some b) (some d) check first = .ok (p, errors)) :
    p.Edged cmp P ∧ p.bounds = b.canonical d ∧ p.domain = d ∧ p.check = check := by
  obtain ⟨hbounded, hlt, henter⟩ := create_eq_ok hb.order h
  have hgrounded : Recipe.Grounded cmp P b := ⟨hb.order, hbounded, hb.lower, hb.upper⟩
  have hnew : Edged cmp P (⟨name, b.canonical d, d, check, .ofSet (.empty (b.canonical d).cmp),
      .empty, []⟩ : Pool α ρ) := by
    refine ⟨balanced_new hb.order hbounded hlt name check, hd, hlt, hgrounded.edgedBy hd, ?_⟩
    show Cut.EdgedBy cmp P (IntervalSet.region cmp [])
    rw [IntervalSet.region_nil]
    exact Cut.edgedBy_empty
  -- Nothing is claimed at first, and each of the first claims is a change.
  have hp := enterAll_keeps
    (I := fun p => p.Edged cmp P ∧ p.bounds = b.canonical d ∧ p.domain = d ∧ p.check = check)
    (fun _ hx => hx.order) (fun _ hp => hp.1.toBalanced)
    (fun _ _ _ _ _ hp hx hfit hchanged =>
      ⟨hp.1.changed hchanged (hp.1.edgedBy_of_fit hx hfit), hchanged.bounds.trans hp.2.1,
        hchanged.domain.trans hp.2.2.1, hchanged.check.trans hp.2.2.2⟩)
    ⟨hnew, rfl, rfl, rfl⟩ hfirst
  rw [henter] at hp
  exact hp

/-! ### Answers -/

/-- A single value is the only value of its range. -/
theorem contains_singleton_iff [Std.LawfulEqCmp cmp] (hp : p.Balanced cmp) (v w : α) :
    (p.singleton v).contains w ↔ w = v := by
  show (Interval.singleton v).contains p.bounds.cmp w ↔ _
  rw [hp.order, Interval.contains_singleton, Std.LawfulEqCmp.compare_eq_iff_eq]
  exact eq_comm

/-- A range that changes only at values of `P` starts at one of them. -/
theorem exists_lower_of_edgedBy (hne : Cut.lt cmp c.lower c.upper)
    (hc : Cut.EdgedBy cmp P (c.toInterval.region cmp)) :
    ∃ v, P v ∧ Cut.same cmp c.lower (.below v) := by
  rw [← IntervalSet.region_singleton] at hc
  exact (IntervalSet.normal_singleton hne).lower_of_edgedBy hc (List.mem_singleton_self _)

/-- What holds of the values of `P` in a range holds of all its cuts. -/
theorem spans_subset_of_edgedBy (hne : Cut.lt cmp c.lower c.upper)
    (hc : Cut.EdgedBy cmp P (c.toInterval.region cmp)) {ms : List (Interval α)}
    (hms : IntervalSet.Normal cmp ms) (hmsP : Cut.EdgedBy cmp P (IntervalSet.region cmp ms))
    (h : ∀ v, P v → c.toInterval.Spans cmp (.below v) → IntervalSet.Covers cmp ms (.below v))
    {k : Cut α} (hk : c.toInterval.Spans cmp k) : IntervalSet.Covers cmp ms k := by
  rw [← IntervalSet.region_singleton] at hc
  refine (IntervalSet.normal_singleton hne).covers_of_edgedBy hms hc hmsP (fun v hv hcv => ?_)
    ⟨_, List.mem_singleton_self _, hk⟩
  obtain ⟨m, hm, hspan⟩ := hcv
  obtain rfl := List.mem_singleton.mp hm
  exact h v hv hspan

/-- What is admitted when one asks for a range between values of `P` fits. -/
theorem fitting_of_grounded (hp : p.Balanced cmp) (hr : Recipe.Grounded cmp P r)
    (h : p.vet (some r) = .ok c) : Fitting cmp p c := by
  refine (fitting_of_vet hp (fun x hx => ?_) h).1
  obtain rfl := Option.some.inj hx
  exact hr.order

namespace Edged

/-- The bounds enclose a range when they have all its values of `P`. -/
theorem encloses_bounds (hp : p.Edged cmp P) (hne : Cut.lt cmp c.lower c.upper)
    (hc : Cut.EdgedBy cmp P (c.toInterval.region cmp))
    (h : ∀ v, P v → c.toInterval.Spans cmp (.below v) → p.bounds.toInterval.Spans cmp (.below v)) :
    p.bounds.toInterval.encloses cmp c.toInterval := by
  obtain ⟨w, -, hsame⟩ := exists_lower_of_edgedBy hne hc
  obtain ⟨x, hx, -⟩ := Cut.eq_below_of_same hsame
  have hbounds : Cut.EdgedBy cmp P (IntervalSet.region cmp [p.bounds.toInterval]) := by
    rw [IntervalSet.region_singleton]
    exact hp.edgedBounds
  refine Interval.encloses_of_spans hp.halfOpen ⟨x, hx⟩ hne fun v hspan => ?_
  obtain ⟨m, hm, hmspan⟩ := spans_subset_of_edgedBy hne hc
    (IntervalSet.normal_singleton hp.nonempty) hbounds
    (fun y hy hspan => ⟨_, List.mem_singleton_self _, h y hy hspan⟩) hspan
  rwa [List.mem_singleton.mp hm] at hmspan

variable (hp : p.Edged cmp P) (hc : Fitting cmp p c)
    (hcP : Cut.EdgedBy cmp P (c.toInterval.region cmp))

include hp hc hcP

/-- A fitting range overlaps the set of the claimed values exactly when one of its values of `P` is
    claimed: both start at such a value, and the later start is in both. -/
theorem intersects_iff :
    p.claimed.set.intersects (some c) = true ↔ ∃ v, P v ∧ c.contains v ∧ p.isClaimed v := by
  have hcontains := Range.contains_iff_spans hc.order
  have hclaimed : ∀ v, p.isClaimed v ↔ _ := hp.claimed.contains_iff
  constructor
  · intro h
    obtain ⟨m, hm, hover⟩ := (intersects_iff_overlaps hp.toBalanced hc).mp h
    rw [Interval.overlaps_iff] at hover
    obtain ⟨v, hv, hsame⟩ := hp.claimed.normal.lower_of_edgedBy hp.edgedClaimed hm
    obtain ⟨w, hw, hsame'⟩ := exists_lower_of_edgedBy hc.nonempty hcP
    -- The one that starts later starts within the other.
    by_cases hle : Cut.le cmp m.lower c.lower
    · refine ⟨w, hw, (hcontains w).mpr ?_, (hclaimed w).mpr ⟨m, hm, ?_⟩⟩ <;>
        unfold Interval.Spans <;> grind
    · refine ⟨v, hv, (hcontains v).mpr ?_, (hclaimed v).mpr ⟨m, hm, ?_⟩⟩ <;>
        unfold Interval.Spans <;> grind
  · rintro ⟨v, -, hcv, hv⟩
    exact intersects_of_held hp.toBalanced hc ((hcontains v).mp hcv) ((hp.agree v).mp hv)

/-- A single member of the set of the claimed values encloses a fitting range exactly when all its
    values of `P` are claimed. -/
theorem encloses_iff :
    p.claimed.set.encloses (some c) = true ↔ ∀ v, P v → c.contains v → p.isClaimed v := by
  have hcontains := Range.contains_iff_spans hc.order
  constructor
  · intro h v _ hv
    exact (hp.agree v).mpr (exists_held_of_encloses hp.toBalanced h ((hcontains v).mp hv))
  · intro h
    refine encloses_of_covers hp.toBalanced hc fun k hk => ?_
    refine spans_subset_of_edgedBy hc.nonempty hcP hp.claimed.normal hp.edgedClaimed
      (fun v hv hspan => ?_) hk
    exact (hp.claimed.contains_iff v).mp (h v hv ((hcontains v).mpr hspan))

omit hc hcP

section

variable (hr : Recipe.Grounded cmp P r) (hne : ∃ v, P v ∧ r.contains v)

include hr

/-- The half-open form of a range has the same values among those considered. -/
theorem contains_canonical {v : α} (hv : P v) :
    (r.canonical p.domain).contains v = r.contains v := by
  unfold Range.contains
  rw [show (r.canonical p.domain).cmp = cmp from hr.order, hr.order]
  exact Interval.contains_canonical_on hp.lawful hr.lower hr.upper hv

include hne

/-- A range between values of `P` that has one of them is not empty, nor is its half-open form. -/
theorem lt_canonical : Cut.lt cmp r.lower r.upper ∧
    Cut.lt cmp (r.canonical p.domain).lower (r.canonical p.domain).upper := by
  obtain ⟨v, hv, hrv⟩ := hne
  have hspan := (Range.contains_iff_spans hr.order v).mp hrv
  have hspan' := (Range.contains_iff_spans (r := r.canonical p.domain) hr.order v).mp
    ((hp.contains_canonical hr hv).trans hrv)
  unfold Interval.Spans at hspan hspan'
  grind

/-- A range between values of `P` that the check lets pass is admitted exactly when all its values
    of `P` lie in the bounds. -/
theorem vet_iff (hpasses : p.check (r.canonical p.domain) = none) :
    p.vet (some r) = .ok (r.canonical p.domain) ↔
      ∀ v, P v → r.contains v → p.bounds.contains v := by
  obtain ⟨hlt, hlt'⟩ := hp.lt_canonical hr hne
  have hcontains := Range.contains_iff_spans (r := r.canonical p.domain) hr.order
  have hbounds := Range.contains_iff_spans hp.order
  constructor
  · intro h v hv hrv
    rw [← hp.contains_canonical hr hv, hcontains] at hrv
    exact (hbounds v).mpr (Interval.spans_of_encloses
      (fitting_of_grounded hp.toBalanced hr h).enclosed hrv)
  · intro h
    have hvalid : r.isValid := by
      unfold Range.isValid
      rw [hr.order]
      exact Interval.isValid_of_lt hlt
    refine vet_eq_of_fitting hp.toBalanced hvalid
      ⟨hr.order, Interval.halfOpen_canonical _, hlt', ?_⟩ hpasses
    -- Both ranges end at values that are considered, so these decide whether one is within the
    -- other.
    refine hp.encloses_bounds hlt' (hr.edgedBy hp.lawful) fun v hv hspan => ?_
    rw [← hcontains, hp.contains_canonical hr hv] at hspan
    exact (hbounds v).mp (h v hv hspan)

variable (hpasses : p.check (r.canonical p.domain) = none)

include hpasses

/-- A range between values of `P` is claimed exactly when all its values of `P` are free. -/
theorem claimRange_answer_iff (labels : Labels) :
    (p.claimRange (some r) labels).answer = .ok () ↔ ∀ v, P v → r.contains v → p.isFree v := by
  -- A range that is admitted is claimed exactly when none of its values is.
  have hadmitted : p.vet (some r) = .ok (r.canonical p.domain) →
      ((p.claimRange (some r) labels).answer = .ok () ↔
        ∀ v, P v → r.contains v → ¬ p.isClaimed v) := by
    intro hvet
    have hfit := fitting_of_grounded hp.toBalanced hr hvet
    rw [claimRange_answer_of_vet hp.toBalanced hfit hvet, ← Bool.not_eq_true,
      hp.intersects_iff hfit (hr.edgedBy hp.lawful)]
    simp only [not_exists, not_and]
    refine forall₂_congr fun v hv => ?_
    rw [hp.contains_canonical hr hv]
  have hvet := hp.vet_iff hr hne hpasses
  simp only [isFree_iff]
  constructor
  · intro h v hv hrv
    have hok := vet_eq_of_answer h
    exact ⟨hvet.mp hok v hv hrv, (hadmitted hok).mp h v hv hrv⟩
  · intro h
    exact (hadmitted (hvet.mpr fun v hv hrv => (h v hv hrv).1)).mpr fun v hv hrv => (h v hv hrv).2

/-- A range between values of `P` gets new labels exactly when all its values of `P` are claimed. -/
theorem relabelRange_answer_iff (labels : Labels) :
    (p.relabelRange (some r) labels).answer = .ok () ↔ ∀ v, P v → r.contains v → p.isClaimed v := by
  have hadmitted : p.vet (some r) = .ok (r.canonical p.domain) →
      ((p.relabelRange (some r) labels).answer = .ok () ↔
        ∀ v, P v → r.contains v → p.isClaimed v) := by
    intro hvet
    have hfit := fitting_of_grounded hp.toBalanced hr hvet
    rw [relabelRange_answer_of_vet hp.toBalanced hfit hvet,
      hp.encloses_iff hfit (hr.edgedBy hp.lawful)]
    refine forall₂_congr fun v hv => ?_
    rw [hp.contains_canonical hr hv]
  constructor
  · intro h
    exact (hadmitted (vet_eq_of_answer h)).mp h
  · intro h
    refine (hadmitted ((hp.vet_iff hr hne hpasses).mpr fun v hv hrv => ?_)).mpr h
    -- What is claimed lies within the bounds.
    rw [Range.contains_iff_spans hp.order]
    exact hp.spans_of_covers ((hp.claimed.contains_iff v).mp (h v hv hrv))

end

/-- A value of `P` can be claimed exactly when it is free. -/
theorem claim_answer_iff [Std.LawfulEqCmp cmp] {v : α} (hv : P v)
    (hpasses : p.check ((p.singleton v).canonical p.domain) = none) (labels : Labels) :
    (p.claim v labels).answer = .ok () ↔ p.isFree v := by
  have hone := contains_singleton_iff hp.toBalanced v
  unfold claim
  rw [hp.claimRange_answer_iff (grounded_singleton hp.toBalanced hv)
    ⟨v, hv, (hone v).mpr rfl⟩ hpasses]
  simp only [hone]
  exact ⟨fun h => h v hv rfl, fun h x _ hx => hx ▸ h⟩

/-- A value of `P` gets new labels exactly when it is claimed. -/
theorem relabel_answer_iff [Std.LawfulEqCmp cmp] {v : α} (hv : P v)
    (hpasses : p.check ((p.singleton v).canonical p.domain) = none) (labels : Labels) :
    (p.relabel v labels).answer = .ok () ↔ p.isClaimed v := by
  have hone := contains_singleton_iff hp.toBalanced v
  unfold relabel
  rw [hp.relabelRange_answer_iff (grounded_singleton hp.toBalanced hv)
    ⟨v, hv, (hone v).mpr rfl⟩ hpasses]
  simp only [hone]
  exact ⟨fun h => h v hv rfl, fun h x _ hx => hx ▸ h⟩

end Edged

end Allotment.Pool
