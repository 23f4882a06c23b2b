import Allotment.Proofs.IntervalSet.Equality
import Allotment.Proofs.Pool.Runs

namespace Allotment.Pool

/-!
# The free values of a pool

The free values are computed as a set: the bounds of the pool, less the outside of the outside of
the claimed values.  Whether a single value is free is read off the bounds and the claimed values
instead.  The two ways agree:

* `unclaimed_eq` — the set of the free values can always be computed;
* `exists_unclaimed` — it covers what the bounds span and no claim does, and its intervals start at
  values;
* `Unclaimed.firstFree_eq` — so its first value is there, and is the least one;
* `Partitioned`, `run_partitioned` — each value of the pool is either claimed or free, whichever way
  one asks.
-/

universe u

variable {α : Type u} {ρ : Type u} {cmp : α → α → Ordering} [Std.TransCmp cmp] {p : Pool α ρ}

/-! ### The set of the free values -/

/-- What is claimed lies within the bounds. -/
theorem Balanced.spans_of_covers (hp : p.Balanced cmp) {k : Cut α}
    (hk : IntervalSet.Covers cmp p.claimed.set.members k) : p.bounds.toInterval.Spans cmp k := by
  obtain ⟨l, e, he, hspan, -⟩ := (hp.covers k).mp hk
  exact Interval.spans_of_encloses (hp.enclosed e he) hspan

omit [Std.TransCmp cmp] in
/-- The free values are the values of the pool that are not claimed. -/
theorem isFree_iff (p : Pool α ρ) (v : α) : p.isFree v ↔ p.bounds.contains v ∧ ¬ p.isClaimed v := by
  rw [isFree, Bool.and_eq_true, Bool.not_eq_true', ← Bool.not_eq_true]
  rfl

/-- What holds of the set of the free values. -/
structure Unclaimed (cmp : α → α → Ordering) (p : Pool α ρ) (c : Cell α) : Prop where
  sound : c.Sound cmp
  region : IntervalSet.region cmp c.set.members =
    p.bounds.toInterval.region cmp \ IntervalSet.region cmp p.claimed.set.members
  start : ∀ m ∈ c.set.members, ∃ v, m.lower = .below v

/-- An interval in half-open form that starts at a value changes only at values. -/
theorem edgedBy_of_halfOpen {r : Interval α} (hstart : ∃ v, r.lower = .below v)
    (hopen : r.upper.HalfOpen) : Cut.EdgedBy cmp (fun _ => True) (r.region cmp) := by
  obtain ⟨v, hv⟩ := hstart
  refine Interval.edgedBy_region (Or.inr ⟨v, trivial, hv⟩) ?_
  cases hup : r.upper with
  | bottom => exact Or.inl rfl
  | below w => exact Or.inr (Or.inr ⟨w, trivial, rfl⟩)
  | above w =>
    rw [hup] at hopen
    exact absurd hopen id
  | top => exact Or.inr (Or.inl rfl)

/-- The claimed values change only at values, since each of the claims does. -/
theorem edgedBy_claimed (hp : p.Balanced cmp) :
    Cut.EdgedBy cmp (fun _ => True) (IntervalSet.region cmp p.claimed.set.members) := by
  have hregion : IntervalSet.region cmp p.claimed.set.members =
      IntervalSet.region cmp (p.claims.map fun e => e.range.toInterval) := by
    ext k
    rw [IntervalSet.mem_region, hp.covers]
    simp [Ledger.Held, IntervalSet.Covers]
  rw [hregion]
  refine IntervalSet.edgedBy_region fun m hm => ?_
  obtain ⟨e, he, rfl⟩ := List.mem_map.mp hm
  have hfit := hp.fitting he
  exact edgedBy_of_halfOpen (hfit.start hp) hfit.halfOpen.2

/-- All values of a pool, as a set. -/
def whole (p : Pool α ρ) : View α :=
  ⟨⟨p.bounds.cmp, [p.bounds.toInterval]⟩, .inside⟩

omit [Std.TransCmp cmp] in
/-- The bounds of a pool are a set of one interval. -/
theorem Balanced.whole (hp : p.Balanced cmp) (hne : Cut.lt cmp p.bounds.lower p.bounds.upper) :
    p.whole.Sound cmp :=
  ⟨hp.order, IntervalSet.normal_singleton hne⟩

omit [Std.TransCmp cmp] in
theorem region_whole : p.whole.region cmp = p.bounds.toInterval.region cmp :=
  IntervalSet.region_singleton _

/-- The set of the free values can always be computed: no set refuses its part of the work. -/
theorem unclaimed_eq (hp : p.Balanced cmp) (hne : Cut.lt cmp p.bounds.lower p.bounds.upper) :
    p.unclaimed = .ok (Cell.meet p.whole (p.claimed.view .outside)).1 := by
  have hrefused : (Cell.meet p.whole (p.claimed.view .outside)).2 = [] :=
    Combination.meet.refused_cell (hp.whole hne) (hp.claimed.view .outside)
  have hmeet : Cell.meet p.whole (p.claimed.view .outside) =
      ((Cell.meet p.whole (p.claimed.view .outside)).1, []) := Prod.ext rfl hrefused
  have hbounds : Cut.lt p.bounds.cmp p.bounds.lower p.bounds.upper := hp.order ▸ hne
  have : Std.TransCmp p.bounds.cmp := hp.order ▸ ‹Std.TransCmp cmp›
  unfold unclaimed
  rw [Cell.ofRanges_singleton rfl hbounds]
  show (Attempt.ofRefusals (Cell.meet p.whole (p.claimed.view .outside))).toExcept = _
  rw [hmeet]
  rfl

/-- What the set of the free values covers, and where its intervals start. -/
theorem exists_unclaimed (hp : p.Balanced cmp) (hne : Cut.lt cmp p.bounds.lower p.bounds.upper) :
    ∃ c, p.unclaimed = .ok c ∧ Unclaimed cmp p c := by
  have hclaimed := hp.claimed.view .inside
  have hmeet := (hp.whole hne).meet (p.claimed.view .outside)
  have hregion : (p.whole.meet (p.claimed.view .outside)).region cmp =
      p.bounds.toInterval.region cmp \ IntervalSet.region cmp p.claimed.set.members := by
    refine (View.region_meet (hp.whole hne) hclaimed.complement).trans ?_
    rw [View.region_complement hclaimed, region_whole, ← Set.sdiff_eq]
    rfl
  refine ⟨_, unclaimed_eq hp hne, ⟨hmeet.order, hmeet.normal⟩, hregion, ?_⟩
  intro m hm
  -- Bounds and claims start below values, so what is left does as well.
  have hedged := (edgedBy_of_halfOpen hp.start hp.halfOpen).sdiff (edgedBy_claimed hp)
  rw [← hregion] at hedged
  obtain ⟨v, -, hsame⟩ := hmeet.intervals.lower_of_edgedBy hedged hm
  obtain ⟨w, hw, -⟩ := Cut.eq_below_of_same hsame
  exact ⟨w, hw⟩

namespace Unclaimed

variable {c : Cell α}

/-- What is left has the values within the bounds that no claim covers. -/
theorem contains_iff (hc : Unclaimed cmp p c) (v : α) : c.set.contains v ↔
    p.bounds.toInterval.Spans cmp (.below v) ∧
      ¬ IntervalSet.Covers cmp p.claimed.set.members (.below v) := by
  rw [hc.sound.contains_iff]
  exact Set.ext_iff.mp hc.region (.below v)

/-- The set of the free values has the values that are free. -/
theorem isFree_iff (hp : p.Balanced cmp) (hc : Unclaimed cmp p c) (v : α) :
    p.isFree v ↔ c.set.contains v := by
  have hclaimed : p.isClaimed v ↔ _ := hp.claimed.contains_iff v
  rw [Pool.isFree_iff, hc.contains_iff, Range.contains_iff_spans hp.order, hclaimed]

/-- A set of free values that has an interval has a least value, and that is the first free one. -/
theorem firstFree_eq (hc : Unclaimed cmp p c) (h : p.unclaimed = .ok c) (hne : c.set.members ≠ []) :
    ∃ v, p.firstFree = .ok v ∧ c.set.contains v ∧ ∀ w, c.set.contains w → (cmp v w).isLE := by
  have hnormal := hc.sound.normal
  have hstart := hc.start
  unfold firstFree
  rw [h]
  simp only [hc.sound.contains_iff]
  cases hmembers : c.set.members with
  | nil => exact absurd hmembers hne
  | cons m ms =>
    rw [hmembers] at hnormal hstart
    obtain ⟨v, hv⟩ := hstart m (List.mem_cons_self ..)
    refine ⟨v, by simp [hv, Cut.endpoint?], hv ▸ hnormal.covers_lower, fun w hw => ?_⟩
    rw [← Cut.below_le_below, ← hv]
    exact hnormal.le_of_covers hw

/-- Nothing is left exactly when no value is free, since each interval starts at a value. -/
theorem members_eq_nil_iff (hc : Unclaimed cmp p c) (h : p.unclaimed = .ok c) :
    c.set.members = [] ↔ ∀ v, c.set.contains v = false := by
  constructor
  · intro hnil v
    rw [← Bool.not_eq_true, hc.sound.contains_iff, hnil]
    exact IntervalSet.not_covers_nil _
  · intro hnone
    by_contra hne
    obtain ⟨v, -, hv, -⟩ := hc.firstFree_eq h hne
    rw [hnone v] at hv
    cases hv

/-- There is no first free value exactly when nothing is left. -/
theorem firstFree_eq_noFree_iff (hc : Unclaimed cmp p c) (h : p.unclaimed = .ok c) :
    p.firstFree = .error .noFree ↔ c.set.members = [] := by
  constructor
  · intro hnone
    by_contra hne
    obtain ⟨v, hv, -⟩ := hc.firstFree_eq h hne
    rw [hv] at hnone
    cases hnone
  · intro hnil
    unfold firstFree
    rw [h]
    simp [hnil]

end Unclaimed

/-! ### Claimed and free -/

/-- The claimed values and the free values of a pool. -/
structure Partitioned (cmp : α → α → Ordering) (p : Pool α ρ) : Prop where
  /-- The set of the free values is always computed. -/
  unclaimed : ∃ c, p.unclaimed = .ok c ∧ p.free = c.set
  /-- A value of the pool is either claimed or free. -/
  contains_bounds : ∀ v, p.bounds.contains v = (p.claimed.set.contains v ^^ p.free.contains v)
  outside : ∀ v, p.bounds.contains v = false →
    p.claimed.set.contains v = false ∧ p.free.contains v = false
  isClaimed : ∀ v, p.isClaimed v = p.claimed.set.contains v
  isFree : ∀ v, p.isFree v = p.free.contains v
  free_eq_nil : p.free.members = [] ↔ ∀ v, p.free.contains v = false
  firstFree : p.free.members ≠ [] →
    ∃ v, p.firstFree = .ok v ∧ p.free.contains v ∧ ∀ w, p.free.contains w → (cmp v w).isLE
  firstFree_eq_noFree : p.firstFree = .error .noFree ↔ p.free.members = []

/-- Bounds, claimed values and free values agree in every pool that is not empty. -/
theorem Balanced.partitioned (hp : p.Balanced cmp)
    (hne : Cut.lt cmp p.bounds.lower p.bounds.upper) : p.Partitioned cmp := by
  obtain ⟨c, hok, hc⟩ := exists_unclaimed hp hne
  have hfree : p.free = c.set := by
    unfold free
    rw [hok]
  have hbounds := Range.contains_iff_spans hp.order
  have hclaimed := hp.claimed.contains_iff
  have hspans : ∀ v, p.claimed.set.contains v → p.bounds.contains v := by
    intro v hv
    rw [hbounds]
    exact hp.spans_of_covers ((hclaimed v).mp hv)
  -- In the set of the free values are the values of the pool that are not claimed.
  have hfree' : ∀ v, p.free.contains v = (p.bounds.contains v && !p.claimed.set.contains v) := by
    intro v
    rw [Bool.eq_iff_iff, hfree, ← hc.isFree_iff hp]
    exact Iff.rfl
  exact
    { unclaimed := ⟨c, hok, hfree⟩
      contains_bounds := by
        intro v
        have hv := hspans v
        rw [hfree' v]
        revert hv
        cases p.bounds.contains v <;> cases p.claimed.set.contains v <;> simp
      outside := by
        intro v hout
        have hclaimed' : p.claimed.set.contains v = false := by
          rw [← Bool.not_eq_true]
          intro hv
          rw [hspans v hv] at hout
          cases hout
        refine ⟨hclaimed', ?_⟩
        rw [hfree' v, hout, Bool.false_and]
      isClaimed := fun _ => rfl
      isFree := fun v => (hfree' v).symm
      free_eq_nil := hfree ▸ hc.members_eq_nil_iff hok
      firstFree := hfree ▸ hc.firstFree_eq hok
      firstFree_eq_noFree := hfree ▸ hc.firstFree_eq_noFree_iff hok }

/-- **The claimed and the free values divide the pool.**  Take any lawful domain, any bounds and
    first claims that a pool can be created with, any check, and any requests, met or refused.  Then
    the set of the free values is computed without an error; a value is in the pool exactly when it
    is either claimed or free, and outside it is neither; asking for a single value gives the same
    answers as the two sets.  The first free value is the least one, and there is none exactly when
    no value is free. -/
theorem run_partitioned {d : Domain α} (hd : d.Lawful cmp) {b : Range α} (hb : b.cmp = cmp)
    {name : Text} {check : Range α → Option ρ} {first : List (Option (Range α) × Labels)}
    (hfirst : ∀ e ∈ first, ∀ x, e.1 = some x → x.cmp = cmp) {errors : List (ClaimError α ρ)}
    (hcreate : create name (some b) (some d) check first = .ok (p, errors)) {qs : List (Request α)}
    (hqs : ∀ q ∈ qs, q.ReadIn cmp) {p' : Pool α ρ} (hrun : p.run qs = some p') :
    p'.bounds = b.canonical d ∧ p'.Partitioned cmp := by
  obtain ⟨hsound, hbounds, -⟩ := within_run (within_create hd hb hfirst hcreate) hqs hrun
  refine ⟨hbounds, hsound.partitioned ?_⟩
  rw [hbounds]
  exact (create_eq_ok hb hcreate).2.1

/-- The sample run leaves free the first value, which the check refuses, and the last ones. -/
theorem sampleRequests_partitioned :
    ∃ p', samplePool.run sampleRequests = some p' ∧
      p'.free.members = [.closedOpen 1 2, .closedOpen 11 20] ∧ p'.Partitioned Order.int64 := by
  have hfree : (samplePool.run sampleRequests).map (fun p => p.free.members) =
      some [.closedOpen 1 2, .closedOpen 11 20] := by cbv
  obtain ⟨p', hrun, hfree⟩ := Option.map_eq_some_iff.mp hfree
  exact ⟨p', hrun, hfree,
    (run_partitioned Domain.lawful_int64 rfl readIn_sampleFirst create_samplePool
      readIn_sampleRequests hrun).2⟩

end Allotment.Pool
