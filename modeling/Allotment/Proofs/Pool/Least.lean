import Allotment.Proofs.Answer
import Allotment.Proofs.Pool.Edged
import Allotment.Proofs.Pool.Labelling
import Allotment.Proofs.Pool.Patience

namespace Allotment.Pool

/-!
# The least value that can be claimed

The search for a value to claim goes through the intervals of the free values, and within each of
them from value to value; at each it tries to make a claim.  Trials that fail leave no trace, the
climb leaves no value out, and later intervals have greater values.  So the value that is claimed is
the least one that is free and that the check lets pass.

* `Accepts`, `Claimable` — what the check says of one value, and which values can be claimed;
* `Finds` — a search among certain values that claims the least of them;
* `Edged.claimWithin_finds` — the climb through one interval, by induction on the patience;
* `Edged.claimAmong_finds` — the way through the intervals, by induction over them;
* `Searched`, `Edged.searched` — what the search finds, and what it leaves;
* `run_claimFirst_least` — all this after every run, and in a finite pool the search ends.
-/

universe u

variable {α : Type u} {ρ : Type u} {cmp : α → α → Ordering} {P : α → Prop} {p : Pool α ρ}

/-- The check has nothing against the range of one value in half-open form. -/
def Accepts (p : Pool α ρ) (v : α) : Prop :=
  p.Passes ((p.singleton v).canonical p.domain)

/-- A value that can be claimed. -/
def Claimable (p : Pool α ρ) (v : α) : Prop :=
  p.isFree v ∧ p.Accepts v

/-- The least value of `Q` was claimed; or there is none, and the pool is as it was. -/
def Finds (cmp : α → α → Ordering) (labels : Labels) (p : Pool α ρ) (Q : α → Prop)
    (a : Attempt (Pool α ρ) (ClaimError α ρ) α) : Prop :=
  (∃ v p', a = .done p' v ∧ p.claim v labels = .done p' () ∧ Q v ∧ ∀ w, Q w →
    Cut.le cmp (.below v) (.below w)) ∨ a = .refuse p .noFree ∧ ∀ w, ¬ Q w

variable {labels : Labels} {a : Attempt (Pool α ρ) (ClaimError α ρ) α}

/-- What is searched for can be put in other words. -/
theorem Finds.of_iff {Q Q' : α → Prop} (h : Finds cmp labels p Q a) (hQ : ∀ w, Q w ↔ Q' w) :
    Finds cmp labels p Q' a := by
  obtain rfl : Q = Q' := funext fun w => propext (hQ w)
  exact h

/-- What a search did, and when it found nothing. -/
structure Searched (cmp : α → α → Ordering) (P : α → Prop) (labels : Labels) (p : Pool α ρ)
    (a : Attempt (Pool α ρ) (ClaimError α ρ) α) : Prop where
  /-- The value was free and is accepted, and no lesser free value is. -/
  least : ∀ v, a.answer = .ok v →
    P v ∧ p.isFree v ∧ p.Accepts v ∧ ∀ w, P w → p.isFree w → cmp w v = .lt → ¬ p.Accepts w
  /-- One claim was added, of this value. -/
  claims : ∀ v, a.answer = .ok v →
    ∀ e, e ∈ a.state.claims ↔ e = ⟨(p.singleton v).canonical p.domain, labels⟩ ∨ e ∈ p.claims
  relabelled : ∀ v, a.answer = .ok v → Relabelled P (fun w => cmp v w == .eq)
    (some labels) p a.state
  noFree_iff : a.answer = .error .noFree ↔ ∀ v, P v → p.isFree v → ¬ p.Accepts v
  unchanged : ∀ e, a.answer = .error e → e = .noFree ∧ a.state = p

variable [Std.TransCmp cmp] [Std.LawfulEqCmp cmp]

/-- No two values have the same place in the order. -/
theorem eq_of_below_le_below {v w : α} (hle : Cut.le cmp (.below v) (.below w))
    (hge : Cut.le cmp (.below w) (.below v)) : v = w := by
  have hsame : Cut.same cmp (.below v) (.below w) := by grind
  exact Cut.below.inj (Cut.eq_of_same hsame)

namespace Edged

variable (hp : p.Edged cmp P)

include hp

/-- A value can be claimed exactly when it is free and the check accepts it. -/
theorem claim_answer_iff_claimable {v : α} (hv : P v) (labels : Labels) :
    (p.claim v labels).answer = .ok () ↔ p.Claimable v := by
  constructor
  · intro h
    have hpasses := (eq_canonical_of_vet (vet_eq_of_answer h)).2.2
    exact ⟨(hp.claim_answer_iff hv hpasses labels).mp h, hpasses⟩
  · rintro ⟨hfree, hpasses⟩
    exact (hp.claim_answer_iff hv hpasses labels).mpr hfree

/-- The climb through one interval, from a value that is not before it.  Each step passes a value
    that cannot be claimed, and there is no value between it and the next one. -/
theorem claimWithin_finds {i : Interval α} {patience : Nat} {v : α} (hv : P v)
    (hlower : Cut.le cmp i.lower (.below v)) (h : claimWithin i labels patience p v = some a) :
    Finds cmp labels p
      (fun w => P w ∧ i.contains cmp w ∧ Cut.le cmp (.below v) (.below w) ∧ p.Claimable w) a := by
  induction patience generalizing v with
  | zero => cases h
  | succ patience ih =>
    unfold claimWithin at h
    rw [hp.order] at h
    split at h
    · next hcontains =>
      have hclaimable := hp.claim_answer_iff_claimable hv labels
      rcases claim_cases hp.toBalanced v labels with ⟨e, hclaim⟩ | ⟨_, c, p', hclaim, -⟩
      · -- The value is refused, so it is not the one, and the search goes on with the next.
        have hnot : ¬ p.Claimable v := by
          rw [← hclaimable, hclaim]
          intro hok
          cases hok
        simp only [hclaim, Attempt.refuse_answer, Attempt.refuse_state] at h
        split at h
        · next w hnext =>
          have hlt : Cut.lt cmp (.below v) (.below w) := by
            simp [Cut.lt, Cut.compare, hp.lawful.lt_next v w hv hnext]
          refine (ih (hp.lawful.next_mem v w hv hnext) (by grind) h).of_iff fun x => ?_
          refine and_congr_right fun hx => and_congr_right fun _ => and_congr_left fun hxc => ?_
          constructor
          · -- What comes from the next value on comes from this one on.
            intro hle
            grind
          · intro hle
            -- The other way around, what comes from this value on is this one, which is excluded,
            -- or after it.
            have hne : ¬ Cut.le cmp (.below x) (.below v) := fun hge =>
              hnot (eq_of_below_le_below hle hge ▸ hxc)
            have hlt : Cut.lt cmp (.below v) (.below x) := by grind
            rw [Cut.below_le_below]
            exact hp.lawful.next_le v w x hv hx hnext (by simpa [Cut.lt, Cut.compare] using hlt)
        · next hnext =>
          cases h
          refine Or.inr ⟨rfl, ?_⟩
          rintro x ⟨hx, -, hle, hxc⟩
          -- No value comes after the last one.
          have hge := (Cut.below_le_below x v).mpr ((hp.lawful.next_eq_none v hv).mp hnext x hx)
          exact hnot (eq_of_below_le_below hle hge ▸ hxc)
      · simp only [hclaim, Attempt.done_answer, Attempt.done_state] at h
        cases h
        have hv' := hclaimable.mp (by rw [hclaim]; rfl)
        exact Or.inl ⟨v, p', rfl, hclaim, ⟨hv, hcontains, Cut.le_refl _, hv'⟩, fun w hw => hw.2.2.1⟩
    · next hcontains =>
      cases h
      refine Or.inr ⟨rfl, ?_⟩
      -- The value is after the interval, and so are all the values that follow.
      rintro x ⟨-, hxi, hle, -⟩
      have hxi := (Interval.contains_iff_spans i x).mp hxi
      rw [Interval.contains_iff_spans] at hcontains
      unfold Interval.Spans at hxi hcontains
      grind

/-- The way through the intervals: the values of later ones are greater. -/
theorem claimAmong_finds {is : List (Interval α)} (his : IntervalSet.Normal cmp is)
    (hstart : ∀ i ∈ is, ∃ v, P v ∧ i.lower = .below v) (h : claimAmong labels p is = some a) :
    Finds cmp labels p (fun w => P w ∧ IntervalSet.Covers cmp is (.below w) ∧ p.Claimable w) a := by
  induction is with
  | nil =>
    cases h
    exact Or.inr ⟨rfl, fun w hw => IntervalSet.not_covers_nil _ hw.2.1⟩
  | cons i is ih =>
    rw [List.forall_mem_cons] at hstart
    obtain ⟨v, hv, hlower⟩ := hstart.1
    simp only [claimAmong, hlower, Cut.endpoint?] at h
    obtain ⟨b, hb, hrest⟩ := Option.bind_eq_some_iff.mp h
    -- The values of the first interval are those that the climb through it comes to.
    have hclimb := hp.claimWithin_finds hv (hlower ▸ Cut.le_refl _) hb
    have hfirst : ∀ w, i.contains cmp w ∧ Cut.le cmp (.below v) (.below w) ↔
        i.Spans cmp (.below w) := by
      intro w
      rw [Interval.contains_iff_spans]
      exact and_iff_left_of_imp fun hspan => hlower ▸ hspan.1
    simp only [← and_assoc (b := Cut.le cmp (.below v) _), hfirst] at hclimb
    rcases hclimb with ⟨u, p', rfl, hclaim, ⟨hu, hspan, huc⟩, hleast⟩ | ⟨rfl, hnone⟩
    · cases hrest
      refine Or.inl ⟨u, p', rfl, hclaim, ⟨hu, (IntervalSet.covers_cons ..).mpr (Or.inl hspan), huc⟩,
        ?_⟩
      rintro w ⟨hw, hcovers, hwc⟩
      rcases (IntervalSet.covers_cons ..).mp hcovers with hspan' | ⟨n, hn, hspan'⟩
      · exact hleast w ⟨hw, hspan', hwc⟩
      · have hapart := (List.pairwise_cons.mp his.apart).1 n hn
        unfold Interval.Spans at hspan hspan'
        grind
    · refine (ih (his.sublist (List.sublist_cons_self ..)) hstart.2 hrest).of_iff fun w => ?_
      rw [IntervalSet.covers_cons]
      refine and_congr_right fun hw => and_congr_left fun hwc => (or_iff_right fun hspan => ?_).symm
      exact hnone w ⟨hw, hspan, hwc⟩

/-- The search among all free values. -/
theorem claimFirst_finds (h : p.claimFirst labels = some a) :
    Finds cmp labels p (fun w => P w ∧ p.Claimable w) a := by
  obtain ⟨c, hc, hunclaimed⟩ := exists_unclaimed hp.toBalanced hp.nonempty
  have hfree : ∀ w, IntervalSet.Covers cmp c.set.members (.below w) ↔ p.isFree w := by
    intro w
    rw [hunclaimed.isFree_iff hp.toBalanced, hunclaimed.sound.contains_iff]
  unfold claimFirst at h
  rw [hc] at h
  refine (hp.claimAmong_finds hunclaimed.sound.normal (fun m hm => hp.exists_start hc hm) h).of_iff
    fun w => ?_
  rw [hfree]
  exact and_congr_right fun _ => and_iff_right_of_imp fun hw => hw.1

/-- What the search finds is the least value that can be claimed, and it is claimed as any other
    value is. -/
theorem searched (h : p.claimFirst labels = some a) : Searched cmp P labels p a := by
  rcases hp.claimFirst_finds h with ⟨v, p', rfl, hclaim, ⟨hv, hvc⟩, hleast⟩ | ⟨rfl, hnone⟩
  · have hok : (p.claim v labels).answer = .ok () := by
      rw [hclaim]
      rfl
    refine ⟨?_, ?_, ?_, ?_, ?_⟩
    · rintro w ⟨⟩
      refine ⟨hv, hvc.1, hvc.2, fun w hw hfree hlt haccepts => ?_⟩
      -- A lesser value that is free and accepted would have been found first.
      have hle := hleast w ⟨hw, hfree, haccepts⟩
      have hlt : Cut.lt cmp (.below w) (.below v) := by simp [Cut.lt, Cut.compare, hlt]
      grind
    · rintro w ⟨⟩ e
      have hmem := mem_claims_of_claimRange hp.toBalanced (r := p.singleton v) hp.order hok e
      rwa [show p.claimRange (some (p.singleton v)) labels = .done p' () from hclaim] at hmem
    · rintro w ⟨⟩
      rcases claim_cases hp.toBalanced v labels with ⟨e, hrefused⟩
        | ⟨_, c, q, hdone, hadmits, -, hchanged⟩
      · rw [hrefused] at hok
        cases hok
      · obtain ⟨rfl, -⟩ := (Attempt.mk.injEq ..).mp (hdone.symm.trans hclaim)
        -- The claim of the value is a change of no other value.
        refine hchanged.relabelled hp.toBalanced fun w hw => ?_
        rw [(eq_canonical_of_vet hadmits).1,
          hp.contains_canonical (grounded_singleton hp.toBalanced hv) hw]
        exact contains_singleton hp.toBalanced v w
    · exact iff_of_false (by simp) fun hnone => hnone v hv hvc.1 hvc.2
    · rintro e ⟨⟩
  · refine ⟨?_, ?_, ?_, iff_of_true rfl fun v hv hfree haccepts => hnone v ⟨hv, hfree, haccepts⟩,
      ?_⟩
    · rintro v ⟨⟩
    · rintro v ⟨⟩
    · rintro v ⟨⟩
    · rintro e ⟨⟩
      exact ⟨rfl, rfl⟩

end Edged

/-! ### Finite pools -/

/-- The number of listed values that do not come before a value. -/
def rankIn (cmp : α → α → Ordering) (vs : List α) (v : α) : Nat :=
  (vs.filter fun x => Cut.le cmp (.below v) (.below x)).length

omit [Std.LawfulEqCmp cmp] in
/-- A listed value has a greater rank than the values after it. -/
theorem rankIn_lt {vs : List α} {v w : α} (hv : v ∈ vs) (hlt : cmp v w = .lt) :
    rankIn cmp vs w < rankIn cmp vs v := by
  have hlt : Cut.lt cmp (.below v) (.below w) := by simp [Cut.lt, Cut.compare, hlt]
  have hsub : vs.filter (fun x => Cut.le cmp (.below w) (.below x)) =
      (vs.filter fun x => Cut.le cmp (.below v) (.below x)).filter fun x => Cut.le cmp (.below w)
      (.below x) := by
    rw [List.filter_filter]
    refine List.filter_congr fun x _ => ?_
    rw [Bool.eq_iff_iff, Bool.and_eq_true]
    grind
  unfold rankIn
  rw [hsub, List.length_filter_lt_length_iff_exists]
  exact ⟨v, List.mem_filter.mpr ⟨hv, Cut.le_refl _⟩, by grind⟩

/-- The search through a finite pool ends: no climb has more steps than there are values. -/
theorem Edged.exists_claimFirst (hp : p.Edged cmp P) {vs : List α}
    (hvs : ∀ v, P v → p.bounds.contains v → v ∈ vs) (hpatience : vs.length < p.domain.patience)
    (labels : Labels) : ∃ a, p.claimFirst labels = some a := by
  -- With each step fewer of the listed values are left, so the patience lasts.
  have hrank : ∀ v, rankIn cmp vs v < p.domain.patience := fun v =>
    (List.length_filter_le _ vs).trans_lt hpatience
  refine Pool.exists_claimFirst (Q := P) hp.toBalanced hrank ?_ ?_ labels
  · intro c hc i hi v hv
    obtain ⟨w, hw, hlower⟩ := hp.exists_start hc hi
    rw [hlower] at hv
    obtain rfl := Option.some.inj hv
    exact hw
  · intro c hc i hi v w hv hcontains hnext
    have hunclaimed := (hp.edgedBy_unclaimed hc).1
    have hfree : p.isFree v := by
      rw [hunclaimed.isFree_iff hp.toBalanced, hunclaimed.sound.contains_iff]
      exact ⟨i, hi, (Interval.contains_iff_spans i v).mp hcontains⟩
    have hlisted := hvs v hv ((isFree_iff p v).mp hfree).1
    exact ⟨hp.lawful.next_mem v w hv hnext, rankIn_lt hlisted (hp.lawful.lt_next v w hv hnext)⟩

/-- All requests to a finite pool are answered. -/
theorem Edged.exists_run_of_finite (hp : p.Edged cmp P) {vs : List α}
    (hvs : ∀ v, P v → p.bounds.contains v → v ∈ vs) (hpatience : vs.length < p.domain.patience)
    {qs : List (Request α)} (hqs : ∀ q ∈ qs, q.On cmp P) : ∃ p', p.run qs = some p' := by
  refine exists_run_of_keeps (I := fun p' => p'.Edged cmp P ∧ p'.bounds = p.bounds ∧
    p'.domain = p.domain) ?_ ?_ ⟨hp, rfl, rfl⟩ hqs
  · rintro p' ⟨hp', hbounds, hdomain⟩ labels
    exact hp'.exists_claimFirst (hbounds ▸ hvs) (hdomain ▸ hpatience) labels
  · rintro p' q a ⟨hp', hbounds, hdomain⟩ hq ha
    have hone : p'.run [q] = some a.state := by simp only [Pool.run, ha, Option.bind_some]
    obtain ⟨hedged, hbounds', hdomain', -⟩ := hp'.run (by simpa using hq) hone
    exact ⟨hedged, hbounds'.trans hbounds, hdomain'.trans hdomain⟩

/-- **The least value that can be claimed.**  Take an order that tells all values apart, a domain
    that is lawful for the values of `P`, be it all values or some of them, bounds and first claims
    between such values that a pool can be created with, any check, and the pool after any requests
    about such values, met or refused.  If the search for a value to claim finds one, then it was
    free, the check accepts it and refuses every lesser free value, and it is claimed from then on
    and nothing else changes; the search reports that there is no free value exactly when the check
    refuses all free values, and then nothing changes.  All requests are answered when there is more
    patience than there are values in the pool. -/
theorem run_claimFirst_least {d : Domain α} (hd : d.LawfulOn cmp P) {b : Range α}
    (hb : EndsAt cmp P b) {name : Text} {check : Range α → Option ρ}
    {first : List (Option (Range α) × Labels)}
    (hfirst : ∀ e ∈ first, ∀ x, e.1 = some x → EndsAt cmp P x) {errors : List (ClaimError α ρ)}
    (hcreate : create name (some b) (some d) check first = .ok (p, errors)) {qs : List (Request α)}
    (hqs : ∀ q ∈ qs, q.On cmp P) (labels : Labels) :
    (∀ p', p.run qs = some p' → p'.bounds = b.canonical d ∧ p'.domain = d ∧ p'.check = check ∧
      ∀ a, p'.claimFirst labels = some a → Searched cmp P labels p' a) ∧
    ∀ vs : List α, (∀ v, P v → b.contains v → v ∈ vs) → vs.length < d.patience →
      ∃ p' a, p.run qs = some p' ∧ p'.claimFirst labels = some a := by
  obtain ⟨hedged, hbounds, hdomain, hcheck⟩ := edged_create hd hb hfirst hcreate
  -- Requests keep the bounds, the domain and the check that the pool was made with.
  have hrun : ∀ p', p.run qs = some p' →
      p'.Edged cmp P ∧ p'.bounds = b.canonical d ∧ p'.domain = d ∧ p'.check = check := by
    intro p' hrun
    obtain ⟨hedged', hbounds', hdomain', hcheck'⟩ := hedged.run hqs hrun
    exact ⟨hedged', hbounds'.trans hbounds, hdomain'.trans hdomain, hcheck'.trans hcheck⟩
  refine ⟨fun p' h => ?_, fun vs hvs hpatience => ?_⟩
  · obtain ⟨hedged', hrest⟩ := hrun p' h
    exact ⟨hrest.1, hrest.2.1, hrest.2.2, fun a ha => hedged'.searched ha⟩
  · have hgrounded : Recipe.Grounded cmp P b := ⟨hb.order, (create_eq_ok hb.order hcreate).1,
      hb.lower, hb.upper⟩
    -- The bounds of the pool have the values of the range that it was made with.
    have hlisted : ∀ v, P v → p.bounds.contains v → v ∈ vs := by
      intro v hv hcontains
      rw [hbounds, ← hdomain, hedged.contains_canonical hgrounded hv] at hcontains
      exact hvs v hv hcontains
    obtain ⟨p', h⟩ := hedged.exists_run_of_finite hlisted (hdomain ▸ hpatience) hqs
    obtain ⟨hedged', hbounds', hdomain', -⟩ := hrun p' h
    obtain ⟨a, ha⟩ := hedged'.exists_claimFirst (hbounds'.trans hbounds.symm ▸ hlisted)
      (hdomain' ▸ hpatience) labels
    exact ⟨p', a, h, ha⟩

/-- The last address of one family and the first one of the other. -/
def sampleSeam : Range Address :=
  ⟨.closed .lastV4 .firstV6, Address.order⟩

/-- A pool of these two addresses. -/
def sampleSeamPool : Pool Address Unit :=
  ⟨.ofString "seam", sampleSeam.canonical Address.domain, Address.domain, fun _ => none,
    .ofSet (.empty Address.order), .empty, []⟩

theorem create_sampleSeamPool :
    create (.ofString "seam") (some sampleSeam) (some Address.domain) (fun _ => none) [] =
      .ok (sampleSeamPool, ([] : List (ClaimError Address Unit))) :=
  rfl

theorem endsAt_sampleSeam : EndsAt Address.order Address.IsPlain sampleSeam := by
  refine ⟨rfl, ?_, ?_⟩
  · rintro v ⟨⟩
    exact ⟨rfl, rfl⟩
  · rintro v ⟨⟩
    exact ⟨rfl, rfl⟩

/-- In the sample run the search has to pass the value that the check refuses and to go on in the
    next interval; in the pool of two addresses it goes on from the one family to the other, and
    then there is nothing left. -/
theorem sampleRequests_claimFirst_least :
    (∃ p' a, samplePool.run sampleRequests = some p' ∧ p'.claimFirst (sampleLabels "f") = some a ∧
      a.answer = .ok 11 ∧ Searched Order.int64 (fun _ => True) (sampleLabels "f") p' a) ∧
    ∃ p' a, sampleSeamPool.run [.claimFirst (sampleLabels "a")] = some p' ∧
      p'.claimFirst (sampleLabels "b") = some a ∧
      a.answer = .ok .firstV6 ∧ Searched Address.order Address.IsPlain (sampleLabels "b") p' a := by
  have hanswer : (samplePool.run sampleRequests).bind
      (fun p => (p.claimFirst (sampleLabels "f")).map fun a =>
      a.answer.toOption) = some (some 11) := by cbv
  have hanswer' : (sampleSeamPool.run [.claimFirst (sampleLabels "a")]).bind (fun p =>
      (p.claimFirst (sampleLabels "b")).map fun a => a.answer.toOption) = some (some .firstV6) := by
    decide +kernel
  obtain ⟨p, hrun, hp⟩ := Option.bind_eq_some_iff.mp hanswer
  obtain ⟨a, ha, hvalue⟩ := Option.map_eq_some_iff.mp hp
  obtain ⟨p', hrun', hp'⟩ := Option.bind_eq_some_iff.mp hanswer'
  obtain ⟨a', ha', hvalue'⟩ := Option.map_eq_some_iff.mp hp'
  have hon : ∀ q ∈ [Request.claimFirst (sampleLabels "a")], q.On Address.order Address.IsPlain := by
    simp [Request.On]
  have hleast := (run_claimFirst_least Domain.lawful_int64.lawfulOn (endsAt_of_order rfl)
    (fun e he x hx => endsAt_of_order (readIn_sampleFirst e he x hx)) create_samplePool
    (fun q hq => (readIn_sampleRequests q hq).on) (sampleLabels "f")).1 p hrun
  have hleast' := (run_claimFirst_least Address.lawfulOn_domain endsAt_sampleSeam
    (by simp) create_sampleSeamPool hon (sampleLabels "b")).1 p' hrun'
  exact ⟨⟨p, a, hrun, ha, Answer.eq_ok_of_toOption hvalue, hleast.2.2.2 a ha⟩,
    p', a', hrun', ha', Answer.eq_ok_of_toOption hvalue', hleast'.2.2.2 a' ha'⟩

end Allotment.Pool
