import Allotment.Proofs.Answer
import Allotment.Proofs.Pool.Runs

namespace Allotment.Pool

/-!
# A pool as a map from values to labels

The claims of a pool give labels to values.  A request that is met gives its labels to the values
that it is about and leaves all others as they are, however it splits the claims; and looking up a
value finds what the map says.

* `labelsOf` — the map;
* `Relabelled` — a change of the labels of some values and of nothing else;
* `Request.onLabels` — what a request that is met does to the map;
* `labelsOf_perform` — a request does so;
* `claimOf_eq` — the lookup of a value of the pool;
* `run_labelsOf` — both after every run.
-/

universe u v

variable {α : Type u} {ρ : Type u} {cmp : α → α → Ordering} {p : Pool α ρ}

/-- The labels of the claim that contains a value. -/
def labelsOf (p : Pool α ρ) (v : α) : Option Labels :=
  (p.claims.find? fun e => e.range.contains v).map fun e => e.labels

/-- The map after a request that was met with a certain answer. -/
def Request.onLabels (cmp : α → α → Ordering) (q : Request α) (answer : Option α)
    (m : α → Option Labels) (v : α) : Option Labels :=
  if q.isAbout cmp answer v then q.labels else m v

variable [Std.TransCmp cmp]

/-- At most one claim contains a value, so the first one that does decides. -/
theorem labelsOf_eq_some_iff (hp : p.Balanced cmp) (v : α) (l : Labels) :
    p.labelsOf v = some l ↔ Ledger.Held cmp p.claims (.below v) l := by
  unfold labelsOf
  rw [Option.map_eq_some_iff]
  constructor
  · rintro ⟨e, he, rfl⟩
    have hmem := List.mem_of_find?_eq_some he
    have hcontains := List.find?_some he
    exact ⟨e, hmem, (hp.contains_iff_spans hmem v).mp hcontains, rfl⟩
  · rintro ⟨e, he, hspan, rfl⟩
    have hcontains := (hp.contains_iff_spans he v).mpr hspan
    cases hfind : p.claims.find? fun e => e.range.contains v with
    | none =>
      rw [List.find?_eq_none] at hfind
      exact absurd hcontains (hfind e he)
    | some f =>
      have hfv : f.range.contains v := by simpa using List.find?_some hfind
      -- No two claims have the same value, so the one that is found is the one that was given.
      have hf := hp.consistent.unique v f (List.mem_of_find?_eq_some hfind) e he hfv hcontains
      exact ⟨f, rfl, by rw [hf]⟩

/-- A change of the claims, seen on the map. -/
theorem labelsOf_of_changed (hp : p.Balanced cmp) {c : Range α} {labels : Option Labels}
    {p' : Pool α ρ} (h : Changed cmp c labels p p') (v : α) :
    p'.labelsOf v = if c.contains v then labels else p.labelsOf v := by
  have hspan := Range.contains_iff_spans h.fitting.order v
  refine Option.ext fun l => ?_
  rw [labelsOf_eq_some_iff h.balanced, h.rewritten]
  split
  · next hc =>
    simp [hspan.mp hc]
  · next hc =>
    rw [hspan] at hc
    simp [hc, labelsOf_eq_some_iff hp]

/-- A change of the claims, seen on the claimed values. -/
theorem isClaimed_of_changed (hp : p.Balanced cmp) {c : Range α} {labels : Option Labels}
    {p' : Pool α ρ} (h : Changed cmp c labels p p') (v : α) :
    p'.isClaimed v = if c.contains v then labels.isSome else p.isClaimed v := by
  have hspan := Range.contains_iff_spans h.fitting.order v
  have hagree : p'.isClaimed v ↔ _ := h.balanced.agree v
  have hagree' : p.isClaimed v ↔ _ := hp.agree v
  rw [Bool.eq_iff_iff, hagree, h.rewritten.exists_held, ← hagree', ← hspan]
  split
  · next hc => simp [hc]
  · next hc => simp [hc]

/-- Some of the values of `P` got new labels or lost their labels, and nothing else changed. -/
structure Relabelled (P : α → Prop) (about : α → Bool) (labels : Option Labels) (p p' : Pool α ρ) :
    Prop where
  labelsOf : ∀ v, P v → p'.labelsOf v = if about v then labels else p.labelsOf v
  isClaimed : ∀ v, P v → p'.isClaimed v = if about v then labels.isSome else p.isClaimed v
  isFree : ∀ v, P v → p'.isFree v = if about v then labels.isNone else p.isFree v
  bounds : p'.bounds = p.bounds
  domain : p'.domain = p.domain
  check : p'.check = p.check

/-- A change of a range is a change of its values. -/
theorem Changed.relabelled (hp : p.Balanced cmp) {c : Range α} {labels : Option Labels}
    {p' : Pool α ρ} (h : Changed cmp c labels p p') {P : α → Prop} {about : α → Bool}
    (habout : ∀ v, P v → c.contains v = about v) : Relabelled P about labels p p' := by
  refine ⟨fun v hv => ?_, fun v hv => ?_, fun v hv => ?_, h.bounds, h.domain, h.check⟩
  · rw [labelsOf_of_changed hp h, habout v hv]
  · rw [isClaimed_of_changed hp h, habout v hv]
  · have hclaimed : p'.claimed.set.contains v = if c.contains v then labels.isSome
        else p.claimed.set.contains v :=
      isClaimed_of_changed hp h v
    rw [← habout v hv, isFree, isFree, h.bounds, hclaimed]
    split
    · next hcv =>
      -- The values of the range lie within the bounds.
      have hbounds : p.bounds.contains v := by
        rw [Range.contains_iff_spans hp.order]
        exact Interval.spans_of_encloses h.fitting.enclosed
          ((Range.contains_iff_spans h.fitting.order v).mp hcv)
      rw [hbounds, Bool.true_and, Option.not_isSome]
    · rfl

/-- A request that was met changed the values that it is about, and nothing else. -/
theorem Settled.relabelled {β : Type v} (hp : p.Sound cmp) {passes : Range α → Prop}
    {about : β → α → Bool} {labels : Option Labels} {a : Attempt (Pool α ρ) (ClaimError α ρ) β}
    (h : Settled cmp passes about labels p a) {b : β} (hb : a.answer = .ok b) :
    Relabelled (fun _ => True) (about b) labels p a.state := by
  rcases h with ⟨e, rfl⟩ | ⟨b', c, p', rfl, -, habout, hchanged⟩
  · cases hb
  · cases hb
    exact hchanged.relabelled hp.toBalanced fun v _ => habout hp.lawful v

/-- A request that is met changes the map as it says; one that is refused leaves the map as it
    was. -/
theorem labelsOf_perform (hp : p.Sound cmp) {q : Request α} (hq : q.ReadIn cmp)
    {a : Attempt (Pool α ρ) (ClaimError α ρ) (Option α)} (h : p.perform q = some a) :
    match a.answer with
    | .ok answer => a.state.labelsOf = q.onLabels cmp answer p.labelsOf
    | .error _ => a.state = p := by
  rcases perform_cases hp hq h with ⟨e, rfl⟩ | ⟨answer, c, p', rfl, -, hcontains, hchanged⟩
  · rfl
  · funext v
    show p'.labelsOf v = _
    rw [labelsOf_of_changed hp.toBalanced hchanged v, hcontains hp.lawful v]
    rfl

/-! ### Looking up a value -/

/-- A value of the pool is admitted as a range of one value. -/
theorem fit_singleton (hp : p.Sound cmp) {v : α} (hv : p.bounds.contains v) :
    p.fit (some (p.singleton v)) = .ok ((p.singleton v).canonical p.domain) := by
  obtain ⟨hlow, hup⟩ := (Range.contains_iff_spans hp.order v).mp hv
  have hlt : Cut.lt cmp (.below v) (.above v) := Cut.below_lt_above v
  have hvalid : (p.singleton v).isValid = true := by
    unfold Range.isValid singleton
    rw [hp.order]
    exact Interval.isValid_of_lt hlt
  have hempty : ((p.singleton v).canonical p.domain).isEmpty = false := by
    show Interval.isEmpty p.bounds.cmp _ = false
    rw [hp.order, Interval.isEmpty_eq_false_iff]
    -- The half-open form ends at the next value, which is not before the cut above the value.
    have hle : Cut.le cmp (.above v) ((Cut.above v).canonical p.domain) :=
      Cut.le_canonical hp.lawful _
    show Cut.lt cmp (.below v) ((Cut.above v).canonical p.domain)
    grind
  have hencloses : p.bounds.encloses ((p.singleton v).canonical p.domain) = true := by
    unfold Range.encloses Interval.encloses
    rw [hp.order, Bool.and_eq_true]
    exact ⟨hlow, Cut.canonical_le hp.lawful hp.halfOpen (Cut.above_le_of_below_lt hup)⟩
  unfold fit
  simp only [hvalid, hempty, hencloses, Bool.not_true, Bool.false_eq_true, if_false]

/-- The lookup from the last claim at or before a value finds the claim that contains it. -/
theorem claimContaining?_eq_some_iff (hp : p.Sound cmp) (v : α) (e : Claim α) :
    p.claimContaining? v = some e ↔ e ∈ p.claims ∧ e.range.contains v :=
  Ledger.lastUpTo?_filter_eq_some hp.kept hp.tidy (r := p.singleton v) hp.order rfl e

/-- Looking up a value of the pool finds a claim with the labels of the value, or reports that there
    is none. -/
theorem claimOf_eq (hp : p.Sound cmp) {v : α} (hv : p.bounds.contains v) :
    match p.labelsOf v with
    | some l => ∃ e, p.claimOf v = .ok e ∧ e.labels = l ∧ e.range.contains v
    | none => p.claimOf v = .error (.notFound v) := by
  cases hfind : p.claimContaining? v with
  -- The claim with the value, if there is one, carries its labels.
  | some e =>
    have hclaimOf : p.claimOf v = .ok e := by
      unfold claimOf
      rw [fit_singleton hp hv, hfind]
      rfl
    obtain ⟨he, hcontains⟩ := (claimContaining?_eq_some_iff hp v e).mp hfind
    have hlabels : p.labelsOf v = some e.labels :=
      (labelsOf_eq_some_iff hp.toBalanced v e.labels).mpr ⟨e, he,
        (hp.contains_iff_spans he v).mp hcontains, rfl⟩
    rw [hlabels]
    exact ⟨e, hclaimOf, rfl, hcontains⟩
  | none =>
    have hclaimOf : p.claimOf v = .error (.notFound v) := by
      unfold claimOf
      rw [fit_singleton hp hv, hfind]
      rfl
    have hlabels : p.labelsOf v = none := by
      -- Labels would be those of a claim with the value, which the search would have found.
      refine Option.eq_none_iff_forall_ne_some.mpr fun l hl => ?_
      obtain ⟨e, he, hspan, -⟩ := (labelsOf_eq_some_iff hp.toBalanced v l).mp hl
      have hsome := (claimContaining?_eq_some_iff hp v e).mpr ⟨he,
        (hp.contains_iff_spans he v).mpr hspan⟩
      rw [hfind] at hsome
      cases hsome
    rw [hlabels]
    exact hclaimOf

/-- **A pool is a map from values to labels.**  Take a pool after any run, with any lawful domain
    and any check.  A request that is met gives its labels to the values that it is about, takes
    their labels away if it releases them, and leaves all other values as they are; a request for
    the first free value is about the value that it returns.  Looking up a value of the pool finds a
    claim that contains it, with the labels that the map has for the value, and reports that nothing
    was found exactly when the map has none. -/
theorem run_labelsOf {d : Domain α} (hd : d.Lawful cmp) {b : Range α} (hb : b.cmp = cmp)
    {name : Text} {check : Range α → Option ρ} {first : List (Option (Range α) × Labels)}
    (hfirst : ∀ e ∈ first, ∀ x, e.1 = some x → x.cmp = cmp) {errors : List (ClaimError α ρ)}
    (hcreate : create name (some b) (some d) check first = .ok (p, errors)) {qs : List (Request α)}
    (hqs : ∀ q ∈ qs, q.ReadIn cmp) {p' : Pool α ρ} (hrun : p.run qs = some p') :
    (∀ q a, q.ReadIn cmp → p'.perform q = some a →
      match a.answer with
      | .ok answer => a.state.labelsOf = q.onLabels cmp answer p'.labelsOf
      | .error _ => a.state = p') ∧
    ∀ v, b.contains v →
      match p'.labelsOf v with
      | some l => ∃ e, p'.claimOf v = .ok e ∧ e.labels = l ∧ e.range.contains v
      | none => p'.claimOf v = .error (.notFound v) := by
  obtain ⟨hsound, hbounds, -⟩ := within_run (within_create hd hb hfirst hcreate) hqs hrun
  refine ⟨fun q a hq h => labelsOf_perform hsound hq h, fun v hv => claimOf_eq hsound ?_⟩
  rw [hbounds]
  unfold Range.contains at hv ⊢
  show (b.toInterval.canonical d).contains b.cmp v = true
  rw [hb] at hv ⊢
  rw [Interval.contains_canonical hd]
  exact hv

/-- A release of the end of one claim, the whole of another and the start of a third. -/
def sampleRelease : Request Int64 :=
  .releaseRange (some ⟨.closed 4 8, Order.int64⟩)

/-- A release from the sample pool takes the labels from its values, and the labels of the number
    nine are found. -/
theorem sampleRequests_labelsOf :
    ∃ p' a, samplePool.run sampleRequests = some p' ∧ p'.perform sampleRelease = some a ∧
      a.state.labelsOf = sampleRelease.onLabels Order.int64 none p'.labelsOf ∧
      ∃ e, p'.claimOf 9 = .ok e ∧ e.labels = sampleLabels "c" ∧ e.range.contains 9 := by
  have hsome : (samplePool.run sampleRequests).map (fun p => (p.labelsOf 9,
      (p.perform sampleRelease).map fun a => a.answer.toOption)) =
        some (some (sampleLabels "c"), some (some none)) := by
    cbv
  obtain ⟨p', hrun, hp'⟩ := Option.map_eq_some_iff.mp hsome
  obtain ⟨hlabels, hrelease⟩ := Prod.mk.inj hp'
  obtain ⟨a, ha, hanswer⟩ := Option.map_eq_some_iff.mp hrelease
  obtain ⟨hperform, hclaimOf⟩ :=
    run_labelsOf Domain.lawful_int64 rfl readIn_sampleFirst create_samplePool
      readIn_sampleRequests hrun
  have hmap := hperform sampleRelease a (Range.Optional.readIn_some rfl) ha
  have hfound := hclaimOf 9 (by decide)
  rw [hlabels] at hfound
  rw [Answer.eq_ok_of_toOption hanswer] at hmap
  exact ⟨p', a, hrun, ha, hmap, hfound⟩

end Allotment.Pool
