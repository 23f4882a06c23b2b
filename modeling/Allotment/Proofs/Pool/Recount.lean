import Allotment.Proofs.Address.Domain
import Allotment.Proofs.IntervalSet.Equality
import Allotment.Proofs.IntervalSet.Repetition
import Allotment.Proofs.Pool.Patience
import Allotment.Proofs.Pool.Requests
import Allotment.Report

namespace Allotment

/-!
# Counting the claimed values again

A pool maintains the set of its claimed values from change to change.  A report makes the set anew,
as the union of the ranges of the claims.  The two never drift apart:

* `Pool.Recounted`, `Pool.Balanced.recounted` — the union of the claims is the maintained set, with
  the same text;
* `Pool.claims_recounted` — so it is after every run, in pools of numbers, of VLAN ids and of
  addresses.
-/

/-! ### The union of the claims -/

namespace Pool

variable {α : Type} {ρ : Type} {cmp : α → α → Ordering}

/-- The union of the claims of a pool, made anew, and the set of the claimed values: no range of a
    claim is refused, the two sets are equal, whichever of them one asks, and they have the same
    text. -/
structure Recounted [Display α] (cmp : α → α → Ordering) (p : Pool α ρ) : Prop where
  refused : (Cell.ofRanges cmp (p.claims.map fun c => some c.range)).2 = []
  equal : (Report.unionOf cmp p.claims).equal (some (p.claimed.view .inside))
  equal_symm : (p.claimed.view .inside).equal (some (Report.unionOf cmp p.claims))
  text : (Report.unionOf cmp p.claims).text = (p.claimed.view .inside).text

variable [Std.TransCmp cmp] {p : Pool α ρ}

/-- The union of the claims covers what the maintained set covers, and both are in normal form. -/
theorem Balanced.union_claims (hp : p.Balanced cmp) :
    (Cell.ofRanges cmp (p.claims.map fun c => some c.range)).2 = [] ∧
      (Report.unionOf cmp p.claims).Sound cmp ∧
      (Report.unionOf cmp p.claims).region cmp = (p.claimed.view .inside).region cmp := by
  -- No claim is refused when the claims are put together, since each is valid and in the same
  -- order.
  have hranges : ∀ r ∈ p.claims.map Claim.range, r.cmp = cmp ∧ r.isValid := by
    intro r hr
    obtain ⟨e, he, rfl⟩ := List.mem_map.mp hr
    refine ⟨hp.kept.order e he, ?_⟩
    show e.range.toInterval.isValid e.range.cmp
    rw [hp.kept.order e he]
    exact Interval.isValid_of_lt (hp.tidy.nonempty e he)
  obtain ⟨c, hc, hsound, -, hregion⟩ := Cell.ofRanges_spec hranges
  rw [List.map_map] at hc
  have hunion : Report.unionOf cmp p.claims = c.view .inside :=
    congrArg (fun x => x.1.view .inside) hc
  refine ⟨congrArg Prod.snd hc, hunion ▸ hsound.view .inside, ?_⟩
  rw [hunion, hregion]
  -- A cut is covered by the union when some claim spans it, and these are the cuts that are
  -- claimed.
  refine IntervalSet.region_eq_iff.mpr fun k => ?_
  show _ ↔ IntervalSet.Covers cmp p.claimed.set.members k
  rw [hp.covers]
  simp [IntervalSet.Covers, Ledger.Held]

/-- In an order that tells all values apart, sets that cover the same have the same intervals, and
    so the same text. -/
theorem Balanced.recounted [Std.LawfulEqCmp cmp] [Display α] (hp : p.Balanced cmp) :
    p.Recounted cmp := by
  obtain ⟨hrefused, hunion, hregion⟩ := hp.union_claims
  have hclaimed := hp.claimed.view .inside
  have hsame : (Report.unionOf cmp p.claims).intervals = (p.claimed.view .inside).intervals :=
    IntervalSet.eq_of_sameIntervals
      ((IntervalSet.sameIntervals_iff hunion.intervals hclaimed.intervals).mpr hregion)
  refine ⟨hrefused, (View.equal_iff hunion hclaimed).mpr hregion,
    (View.equal_iff hclaimed hunion).mpr hregion.symm, ?_⟩
  simp only [View.text, hsame]

/-! ### After every run -/

/-- Take any bounds and first claims that a pool can be created with, any check, and any requests,
    met or refused.  All of them are answered, and the pool after them is recounted. -/
def Recounts [Display α] (cmp : α → α → Ordering) (d : Domain α) : Prop :=
  ∀ {ρ : Type} {name : Text} {b : Range α} {check : Range α → Option ρ}
    {first : List (Option (Range α) × Labels)} {errors : List (ClaimError α ρ)} {p : Pool α ρ}
    {qs : List (Request α)},
    b.cmp = cmp → (∀ e ∈ first, ∀ x, e.1 = some x → x.cmp = cmp) →
    create name (some b) (some d) check first = .ok (p, errors) → (∀ q ∈ qs, q.ReadIn cmp) →
    ∃ p', p.run qs = some p' ∧ p'.Recounted cmp

/-- A run in a patient domain ends, with a recounted pool. -/
theorem Balanced.run_recounted [Std.LawfulEqCmp cmp] [Display α] (hp : p.Balanced cmp)
    (hd : p.domain.Patient) {qs : List (Request α)} (hqs : ∀ q ∈ qs, q.ReadIn cmp) :
    ∃ p', p.run qs = some p' ∧ p'.Recounted cmp := by
  obtain ⟨p', hrun⟩ := exists_run hp hd hqs
  have hp' : p'.Balanced cmp :=
    run_keeps (fun _ hp => hp) (fun _ _ _ _ _ _ hchanged => hchanged.balanced) hp hqs hrun
  exact ⟨p', hrun, hp'.recounted⟩

/-- Recounting works for every domain that is patient with the search. -/
theorem recounts_of_patient [Std.LawfulEqCmp cmp] [Display α] {d : Domain α} (hd : d.Patient) :
    Recounts cmp d := by
  intro ρ name b check first errors p qs hb hfirst hcreate hqs
  obtain ⟨hp, hdomain⟩ := balanced_create hb hfirst hcreate
  exact hp.run_recounted (hdomain ▸ hd) hqs

/-- What is plain is recounted too. -/
theorem Plain.recounted [Std.LawfulEqCmp cmp] [Display α] (hp : p.Balanced cmp)
    (hd : p.domain.Patient) {p' : Option (Pool α ρ)} (h : Plain (Request.ReadIn cmp) p p') :
    ∃ q, p' = some q ∧ q.Recounted cmp := by
  obtain ⟨ps, hps, rfl⟩ := h
  exact hp.run_recounted hd hps

/-- **The union of the claims is the set of the claimed values.**  In every pool of 64-bit integers
    and in every pool of addresses, after any requests, met or refused, no range of a claim is
    refused when the union is made anew; the union is equal to the maintained set and has its text.
    So it is in the pool of VLAN ids and in the pools of addresses that are asked by texts. -/
theorem claims_recounted :
    Recounts Order.int64 .int64 ∧ Recounts Address.order Address.domain ∧
      (∀ qs, ∃ p, VlanPool.run .initial qs = some p ∧ p.Recounted Order.int64) ∧
      ∀ first last p, AddressPool.create first last = .ok p →
        ∀ qs, ∃ p', p.run qs = some p' ∧ p'.pool.Recounted Address.order := by
  refine ⟨recounts_of_patient Domain.patient_int64, recounts_of_patient Address.patient_domain,
    ?_, ?_⟩
  -- The other two kinds of pools hold plain ones, and their runs are plain runs.
  · intro qs
    obtain ⟨hp, hdomain⟩ := balanced_create rfl VlanPool.readIn_first VlanPool.create_initial
    exact (VlanPool.plain_run _ qs).recounted hp (hdomain ▸ Domain.patient_int64)
  · intro first last p hcreate qs
    obtain ⟨name, b, errors, hb, hpool⟩ := AddressPool.exists_create hcreate
    obtain ⟨hp, hdomain⟩ := balanced_create hb (by simp) hpool
    obtain ⟨q, hq, hrecounted⟩ := (p.plain_run qs).recounted hp (hdomain ▸ Address.patient_domain)
    obtain ⟨p', hrun, rfl⟩ := Option.map_eq_some_iff.mp hq
    exact ⟨p', hrun, hrecounted⟩

/-- Some of the claimed addresses are released, others are claimed beside them, and a claim outside
    the pool is refused. -/
def sampleTexts : List AddressPool.Request :=
  [.claimSpan (.ofString "10.0.0.0-10.0.0.9") (sampleLabels "a"), .release (.ofString "10.0.0.4"),
    .claimNetwork (.ofString "10.0.0.10/31") (sampleLabels "b"),
    .claim (.ofString "10.0.1.0") (sampleLabels "c")]

/-- The five claims of the one sample and two of the three claims of the other stand side by
    side. -/
theorem samples_recounted :
    (∃ p, samplePool.run sampleRequests = some p ∧
      (Report.unionOf Order.int64 p.claims).text = "[2‥11)" ∧ p.Recounted Order.int64) ∧
    ∃ p p', AddressPool.create (.v4 0x0a000000) (.v4 0x0a0000ff) = .ok p ∧
      p.run sampleTexts = some p' ∧
      (Report.unionOf Address.order p'.pool.claims).text =
        "[10.0.0.0‥10.0.0.4)[10.0.0.5‥10.0.0.12)" ∧
      p'.pool.Recounted Address.order := by
  constructor
  · have htext : (samplePool.run sampleRequests).map
        (fun p => (Report.unionOf Order.int64 p.claims).text) = some "[2‥11)" := by cbv
    obtain ⟨p, hrun, htext⟩ := Option.map_eq_some_iff.mp htext
    obtain ⟨p', hrun', hrecounted⟩ :=
      claims_recounted.1 rfl readIn_sampleFirst create_samplePool readIn_sampleRequests
    obtain rfl := Option.some.inj (hrun.symm.trans hrun')
    exact ⟨p, hrun, htext, hrecounted⟩
  · have htext : ((AddressPool.create (.v4 0x0a000000) (.v4 0x0a0000ff)).toOption.bind
        (·.run sampleTexts)).map (fun p => (Report.unionOf Address.order p.pool.claims).text) =
        some "[10.0.0.0‥10.0.0.4)[10.0.0.5‥10.0.0.12)" := by decide +kernel
    obtain ⟨p', hbind, htext⟩ := Option.map_eq_some_iff.mp htext
    obtain ⟨p, hp, hrun⟩ := Option.bind_eq_some_iff.mp hbind
    have hcreate := Answer.eq_ok_of_toOption hp
    obtain ⟨q, hrun', hrecounted⟩ := claims_recounted.2.2.2 _ _ p hcreate sampleTexts
    obtain rfl := Option.some.inj (hrun.symm.trans hrun')
    exact ⟨p, p', hcreate, hrun, htext, hrecounted⟩

end Pool

end Allotment
