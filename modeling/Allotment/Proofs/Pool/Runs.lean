import Mathlib
import Allotment.Proofs.Pool.Changes

namespace Allotment.Pool

/-!
# Runs of a pool

What one request can do to a pool, and from that what holds after every run of requests.

* `perform_cases` — a request is refused and leaves the pool as it was, or it is met and changes the
  labels of the values that it is about;
* `run_keeps`, `enterAll_keeps` — what every change keeps holds after every run;
* `within_create`, `within_run` — a new pool is sound, and so it is after every run;
* `Consistent`, `run_consistent` — what this says of the claims and of the claimed values.
-/

universe u v w

variable {α : Type u} {ρ : Type u} {cmp : α → α → Ordering} [Std.TransCmp cmp] {p : Pool α ρ}

/-! ### Requests -/

/-- A range of one value is about the values that the order does not tell from it. -/
theorem contains_singleton (hp : p.Balanced cmp) (w v : α) :
    (some (p.singleton w)).any (·.contains v) = (cmp w v == .eq) := by
  show (Interval.singleton w).contains p.bounds.cmp v = (cmp w v == .eq)
  rw [hp.order, Bool.eq_iff_iff, beq_iff_eq]
  exact Interval.contains_singleton w v

/-- A claim of a value is a claim of the range with this value alone. -/
theorem claim_cases (hp : p.Balanced cmp) (w : α) (labels : Labels) :
    Settled cmp (p.Admits (some (p.singleton w))) (fun _ v => cmp w v == .eq) (some labels) p
      (p.claim w labels) := by
  simp only [← contains_singleton hp]
  exact claimRange_cases hp (r := some (p.singleton w)) (Range.Optional.readIn_some hp.order) labels

/-- What is admitted for a single value with the property `Q`. -/
def AdmitsOne (p : Pool α ρ) (Q : α → Prop) (c : Range α) : Prop :=
  ∃ v, Q v ∧ p.Admits (some (p.singleton v)) c

section

variable {Q : α → Prop} (hQ : ∀ v w, Q v → p.domain.next v = some w → Q w)

include hQ

/-- The climb through one interval, however patient, among values with a property that the next
    value has too. -/
theorem claimWithin_cases (i : Interval α) (labels : Labels) (patience : Nat) (hp : p.Balanced cmp)
    {w : α} (hw : Q w) {a : Attempt (Pool α ρ) (ClaimError α ρ) α}
    (h : claimWithin i labels patience p w = some a) :
    Settled cmp (p.AdmitsOne Q) (fun w v => cmp w v == .eq) (some labels) p a := by
  induction patience generalizing w with
  | zero => cases h
  | succ patience ih =>
    unfold claimWithin at h
    split at h
    · rcases claim_cases hp w labels with ⟨e, hclaim⟩ | ⟨_, c, p', hclaim, hadmits, hc⟩
      · -- The value cannot be claimed, and the climb goes on with the pool as it was.
        simp only [hclaim, Attempt.refuse_answer, Attempt.refuse_state] at h
        split at h
        · next hnext => exact ih (hQ w _ hw hnext) h
        · cases h
          exact Or.inl ⟨_, rfl⟩
      · simp only [hclaim, Attempt.done_answer, Attempt.done_state] at h
        cases h
        exact Or.inr ⟨w, c, p', rfl, ⟨w, hw, hadmits⟩, hc⟩
    · cases h
      exact Or.inl ⟨_, rfl⟩

/-- The search through some intervals claims one value or none. -/
theorem claimAmong_cases (labels : Labels) (hp : p.Balanced cmp) {is : List (Interval α)}
    (his : ∀ i ∈ is, ∀ v, i.lower.endpoint? = some v → Q v)
    {a : Attempt (Pool α ρ) (ClaimError α ρ) α} (h : claimAmong labels p is = some a) :
    Settled cmp (p.AdmitsOne Q) (fun w v => cmp w v == .eq) (some labels) p a := by
  induction is with
  | nil =>
    cases h
    exact Or.inl ⟨_, rfl⟩
  | cons i is ih =>
    rw [List.forall_mem_cons] at his
    unfold claimAmong at h
    split at h
    · exact ih his.2 h
    next v hv =>
      obtain ⟨b, hb, hrest⟩ := Option.bind_eq_some_iff.mp h
      rcases claimWithin_cases hQ i labels _ hp (his.1 v hv) hb with ⟨e, rfl⟩ | ⟨w, c, p', rfl, hc⟩
      · -- Nothing was found in the first interval, and the pool is as it was.
        exact ih his.2 hrest
      · cases hrest
        exact Or.inr ⟨w, c, p', rfl, hc⟩

/-- The search for a value to claim ends without one, or with the value that it claimed. -/
theorem claimFirst_cases (hp : p.Balanced cmp)
    (hfree : ∀ c, p.unclaimed = .ok c → ∀ i ∈ c.set.members, ∀ v, i.lower.endpoint? = some v → Q v)
    (labels : Labels) {a : Attempt (Pool α ρ) (ClaimError α ρ) α}
    (h : p.claimFirst labels = some a) :
    Settled cmp (p.AdmitsOne Q) (fun w v => cmp w v == .eq) (some labels) p a := by
  unfold claimFirst at h
  split at h
  · cases h
    exact Or.inl ⟨_, rfl⟩
  · next c hc => exact claimAmong_cases hQ labels hp (hfree c hc) h

end

/-- The search, when nothing is known of the values. -/
theorem claimFirst_passes (hp : p.Balanced cmp) (labels : Labels)
    {a : Attempt (Pool α ρ) (ClaimError α ρ) α} (h : p.claimFirst labels = some a) :
    Settled cmp p.Passes (fun w v => cmp w v == .eq) (some labels) p a := by
  have hany := claimFirst_cases (Q := fun _ => True) (fun _ _ _ _ => trivial) hp
    (fun _ _ _ _ _ _ => trivial) labels h
  refine hany.mono ?_
  rintro c ⟨v, -, hadmits⟩
  exact hadmits.passes

/-- A request whose range is read in the order `cmp`. -/
def Request.ReadIn (cmp : α → α → Ordering) : Request α → Prop
  | .claimRange r _ | .releaseRange r | .relabelRange r _ => ∀ x, r = some x → x.cmp = cmp
  | .claim _ _ | .claimFirst _ | .release _ | .relabel _ _ => True

/-- The labels that a request gives to the values that it is about; releasing leaves them
    without. -/
def Request.labels : Request α → Option Labels
  | .claim _ l | .claimRange _ l | .claimFirst l | .relabel _ l | .relabelRange _ l => some l
  | .release _ | .releaseRange _ => none

/-- Whether a request that was met is about the value `v`.  Claiming the first value that can be
    claimed is about the value in the answer. -/
def Request.isAbout (cmp : α → α → Ordering) (q : Request α) (answer : Option α) (v : α) : Bool :=
  match q with
  | .claim w _ | .release w | .relabel w _ => cmp w v == .eq
  | .claimRange r _ | .releaseRange r | .relabelRange r _ => r.any (·.contains v)
  | .claimFirst _ => answer.any fun w => cmp w v == .eq

omit [Std.TransCmp cmp] in
/-- An answer can be given in another form. -/
theorem Settled.map {β : Type v} {γ : Type w} {passes : Range α → Prop} {about : β → α → Bool}
    {about' : γ → α → Bool} {labels : Option Labels} {a : Attempt (Pool α ρ) (ClaimError α ρ) β}
    (h : Settled cmp passes about labels p a) (f : β → γ) (hf : ∀ b, about b = about' (f b)) :
    Settled cmp passes about' labels p (a.map f) := by
  rcases h with ⟨e, rfl⟩ | ⟨b, c, p', rfl, hpasses, hcontains, hchanged⟩
  · exact Or.inl ⟨e, rfl⟩
  · refine Or.inr ⟨f b, c, p', rfl, hpasses, ?_, hchanged⟩
    rwa [← hf b]

/-- What a request can do to a pool. -/
theorem perform_cases (hp : p.Balanced cmp) {q : Request α} (hq : q.ReadIn cmp)
    {a : Attempt (Pool α ρ) (ClaimError α ρ) (Option α)} (h : p.perform q = some a) :
    Settled cmp p.Passes (q.isAbout cmp) q.labels p a := by
  have hsingle : ∀ w x, some (p.singleton w) = some x → x.cmp = cmp := fun w =>
    Range.Optional.readIn_some hp.order
  have hpasses : ∀ {r : Option (Range α)} c, p.Admits r c → p.Passes c := fun _ h => h.passes
  -- A value is released or labelled as the range of the one value.
  have habout : ∀ w, (fun v => cmp w v == .eq) = fun v => (some (p.singleton w)).any
      (·.contains v) :=
    fun w => funext fun v => (contains_singleton hp w v).symm
  cases q with
  | claim w l =>
    cases h
    exact ((claim_cases hp w l).mono hpasses).map _ fun _ => rfl
  | claimRange r l =>
    cases h
    exact ((claimRange_cases hp hq l).mono hpasses).map _ fun _ => rfl
  | claimFirst l =>
    obtain ⟨b, hb, rfl⟩ := Option.map_eq_some_iff.mp h
    exact (claimFirst_passes hp l hb).map _ fun _ => rfl
  | release w =>
    cases h
    exact ((releaseRange_cases hp (hsingle w)).mono hpasses).map _ fun _ => (habout w).symm
  | releaseRange r =>
    cases h
    exact ((releaseRange_cases hp hq).mono hpasses).map _ fun _ => rfl
  | relabel w l =>
    cases h
    exact ((relabelRange_cases hp (hsingle w) l).mono hpasses).map _ fun _ => (habout w).symm
  | relabelRange r l =>
    cases h
    exact ((relabelRange_cases hp hq l).mono hpasses).map _ fun _ => rfl

/-! ### Runs -/

section

variable {I : Pool α ρ → Prop}

omit [Std.TransCmp cmp] in
/-- What holds of a pool and after every change of it holds after a request. -/
theorem Settled.keeps {β : Type v} {passes : Range α → Prop} {about : β → α → Bool}
    {labels : Option Labels} {a : Attempt (Pool α ρ) (ClaimError α ρ) β}
    (h : Settled cmp passes about labels p a)
    (hkeeps : ∀ c labels p', passes c → Changed cmp c labels p p' → I p') (hp : I p) :
    I a.state := by
  rcases h with ⟨e, rfl⟩ | ⟨_, c, p', rfl, hpasses, -, hchanged⟩
  · exact hp
  · exact hkeeps c _ p' hpasses hchanged

/-- What every change of a range that passes the check keeps holds after every run. -/
theorem run_keeps (hbalanced : ∀ p, I p → p.Balanced cmp)
    (hkeeps : ∀ p c labels p', I p → p.Passes c → Changed cmp c labels p p' → I p') (hp : I p)
    {qs : List (Request α)} (hqs : ∀ q ∈ qs, q.ReadIn cmp) {p' : Pool α ρ}
    (h : p.run qs = some p') : I p' := by
  induction qs generalizing p with
  | nil =>
    cases h
    exact hp
  | cons q qs ih =>
    obtain ⟨a, ha, hrest⟩ := Option.bind_eq_some_iff.mp h
    have hsettled := perform_cases (hbalanced p hp) (hqs q (List.mem_cons_self ..)) ha
    exact ih (hsettled.keeps (fun c labels p' => hkeeps p c labels p' hp) hp)
      (fun x hx => hqs x (List.mem_cons_of_mem _ hx)) hrest

/-- What every change of a range that fits keeps, also of one that the check has something against,
    holds after the first claims. -/
theorem enterAll_keeps {R : Range α → Prop} (hR : ∀ x, R x → x.cmp = cmp)
    (hbalanced : ∀ p, I p → p.Balanced cmp)
    (hkeeps : ∀ p x c labels p', I p → R x → p.fit (some x) = .ok c → Changed cmp c labels p p' →
      I p')
    (hp : I p) {first : List (Option (Range α) × Labels)}
    (hfirst : ∀ e ∈ first, ∀ x, e.1 = some x → R x) : I (p.enterAll first).1 := by
  induction first generalizing p with
  | nil => exact hp
  | cons e first ih =>
    rw [List.forall_mem_cons] at hfirst
    have hsettled := claimUnchecked_cases (hbalanced p hp) (fun x hx => hR x (hfirst.1 x hx)) e.2
    -- The first claim is entered or refused, then by induction the others.
    have hnext : I (p.claimUnchecked e.1 e.2).state := by
      refine hsettled.keeps (fun c labels p' hfit hchanged => ?_) hp
      cases hx : e.1 with
      | none =>
        rw [hx] at hfit
        cases hfit
      | some x => exact hkeeps p x c labels p' hp (hfirst.1 x hx) (hx ▸ hfit) hchanged
    have hrest := ih hnext hfirst.2
    simp only [enterAll]
    split <;> exact hrest

end

/-- A sound pool with certain bounds, a certain domain and a certain check. -/
structure Within (cmp : α → α → Ordering) (b : Range α) (d : Domain α) (check : Range α → Option ρ)
    (p : Pool α ρ) : Prop where
  sound : p.Sound cmp
  bounds : p.bounds = b
  domain : p.domain = d
  check : p.check = check

variable {b : Range α} {d : Domain α} {check : Range α → Option ρ}

omit [Std.TransCmp cmp] in
/-- A change keeps bounds, domain and check. -/
theorem Within.changed (hp : Within cmp b d check p) {c : Range α} {labels : Option Labels}
    {p' : Pool α ρ} (h : Changed cmp c labels p p') : Within cmp b d check p' :=
  ⟨h.sound hp.sound, h.bounds.trans hp.bounds, h.domain.trans hp.domain, h.check.trans hp.check⟩

/-- So do all requests of a run. -/
theorem within_run (hp : Within cmp b d check p) {qs : List (Request α)}
    (hqs : ∀ q ∈ qs, q.ReadIn cmp) {p' : Pool α ρ} (h : p.run qs = some p') :
    Within cmp b d check p' :=
  run_keeps (fun _ hp => hp.sound) (fun _ _ _ _ hp _ hchanged => hp.changed hchanged) hp hqs h

/-- A pool is created when its bounds have a lower end and hold something; then its first claims are
    entered. -/
theorem create_eq_ok (hb : b.cmp = cmp) {name : Text} {first : List (Option (Range α) × Labels)}
    {errors : List (ClaimError α ρ)}
    (h : create name (some b) (some d) check first = .ok (p, errors)) :
    b.lower.isBounded ∧ Cut.lt cmp (b.canonical d).lower (b.canonical d).upper ∧
      enterAll ⟨name, b.canonical d, d, check, .ofSet (.empty (b.canonical d).cmp), .empty, []⟩
        first = (p, errors) := by
  unfold create at h
  simp only at h
  split at h
  · cases h
  split at h
  · cases h
  rename_i hvalid hempty
  have hc : (b.canonical d).cmp = cmp := hb
  rw [Bool.not_eq_true, Range.isEmpty, hc, Interval.isEmpty_eq_false_iff] at hempty
  simp only [Bool.or_eq_true, Bool.not_eq_true', not_or, Bool.not_eq_false] at hvalid
  exact ⟨hvalid.2, hempty, Except.ok.inj h⟩

/-- A pool can be created with any valid bounds that start at a value and are not empty. -/
theorem create_of_lt (hb : b.cmp = cmp) (hvalid : b.isValid) (hbounded : b.lower.isBounded)
    (hlt : Cut.lt cmp (b.canonical d).lower (b.canonical d).upper) (name : Text)
    (check : Range α → Option ρ) (first : List (Option (Range α) × Labels)) :
    create name (some b) (some d) check first =
      .ok (enterAll ⟨name, b.canonical d, d, check, .ofSet (.empty (b.canonical d).cmp), .empty, []⟩
        first) := by
  have hempty : (b.canonical d).isEmpty = false := by
    rw [Range.isEmpty, show (b.canonical d).cmp = cmp from hb, Interval.isEmpty_eq_false_iff]
    exact hlt
  simp [create, hvalid, hbounded, hempty]

/-- A new pool holds nothing, and its bounds start at a value: a range that starts at the end of the
    domain is empty. -/
theorem balanced_new (hb : b.cmp = cmp) (hbounded : b.lower.isBounded)
    (hlt : Cut.lt cmp (b.canonical d).lower (b.canonical d).upper) (name : Text)
    (check : Range α → Option ρ) :
    Balanced cmp (⟨name, b.canonical d, d, check, .ofSet (.empty (b.canonical d).cmp), .empty, []⟩ :
      Pool α ρ) where
  order := hb
  start := (Cut.halfOpen_canonical b.lower).exists_below (Cut.canonical_ne_bottom hbounded) hlt
  halfOpen := Cut.halfOpen_canonical _
  claimed := ⟨hb, IntervalSet.normal_nil⟩
  isEditable := rfl
  kept := Ledger.kept_empty
  tidy := Ledger.tidy_nil
  enclosed := by simp [claims, Ledger.empty]
  covers := by
    simp [claims, Ledger.empty, Ledger.Held, Cell.ofSet, IntervalSet.empty,
      IntervalSet.not_covers_nil]

/-- A created pool is balanced, also over a domain that is not lawful. -/
theorem balanced_create (hb : b.cmp = cmp) {name : Text} {first : List (Option (Range α) × Labels)}
    (hfirst : ∀ e ∈ first, ∀ x, e.1 = some x → x.cmp = cmp) {errors : List (ClaimError α ρ)}
    (h : create name (some b) (some d) check first = .ok (p, errors)) :
    p.Balanced cmp ∧ p.domain = d := by
  obtain ⟨hbounded, hlt, henter⟩ := create_eq_ok hb h
  have hp := enterAll_keeps (I := fun p => p.Balanced cmp ∧ p.domain = d) (fun _ => id)
    (fun _ hp => hp.1) (fun _ _ _ _ _ hp _ _ hchanged => ⟨hchanged.balanced,
      hchanged.domain.trans hp.2⟩)
    ⟨balanced_new hb hbounded hlt name check, rfl⟩ hfirst
  rw [henter] at hp
  exact hp

/-- A pool has the bounds, the domain and the check that it was created with. -/
theorem within_create (hd : d.Lawful cmp) (hb : b.cmp = cmp) {name : Text}
    {first : List (Option (Range α) × Labels)}
    (hfirst : ∀ e ∈ first, ∀ x, e.1 = some x → x.cmp = cmp) {errors : List (ClaimError α ρ)}
    (h : create name (some b) (some d) check first = .ok (p, errors)) :
    Within cmp (b.canonical d) d check p := by
  obtain ⟨hbounded, hlt, henter⟩ := create_eq_ok hb h
  have hnew := balanced_new hb hbounded hlt name check
  have hp := enterAll_keeps (fun _ => id) (fun _ hp => hp.sound)
    (fun _ _ _ _ _ hp _ _ hchanged => hp.changed hchanged)
    (⟨⟨hnew, hd⟩, rfl, rfl, rfl⟩ : Within cmp (b.canonical d) d check _) hfirst
  rw [henter] at hp
  exact hp

/-! ### The invariant in terms of values -/

/-- The claims and the set of the claimed values, value by value. -/
structure Consistent (cmp : α → α → Ordering) (p : Pool α ρ) : Prop where
  order : ∀ e ∈ p.claims, e.range.cmp = cmp
  increasing : p.claims.Pairwise fun e f => Cut.lt cmp e.range.lower f.range.lower
  disjoint : p.claims.Pairwise fun e f => ∀ v, ¬ (e.range.contains v ∧ f.range.contains v)
  nonempty : ∀ e ∈ p.claims, ∃ v, e.range.contains v
  canonical : ∀ e ∈ p.claims, e.range.canonical p.domain = e.range
  closedOpen : ∀ e ∈ p.claims,
    ∃ v, e.range.lower = .below v ∧ (e.range.upper = .top ∨ ∃ w, e.range.upper = .below w)
  enclosed : ∀ e ∈ p.claims, p.bounds.encloses e.range
  contains_iff : ∀ v, p.claimed.set.contains v ↔ ∃ e ∈ p.claims, e.range.contains v
  unique : ∀ v, ∀ e ∈ p.claims, ∀ f ∈ p.claims, e.range.contains v → f.range.contains v → e = f

/-- A claim has the values whose cuts it spans. -/
theorem Balanced.contains_iff_spans (hp : p.Balanced cmp) {e : Claim α} (he : e ∈ p.claims)
    (v : α) : e.range.contains v ↔ e.range.toInterval.Spans cmp (.below v) :=
  Range.contains_iff_spans (hp.kept.order e he) v

/-- A balanced pool is consistent, in terms of its values. -/
theorem Balanced.consistent (hp : p.Balanced cmp) : p.Consistent cmp where
  order := hp.kept.order
  increasing := hp.tidy.increasing
  disjoint := by
    refine hp.tidy.apart.imp_of_mem ?_
    rintro e f he hf hle v ⟨hev, hfv⟩
    -- A common value would be before the end of the one claim and after the start of the other.
    have hespan := (hp.contains_iff_spans he v).mp hev
    have hfspan := (hp.contains_iff_spans hf v).mp hfv
    unfold Interval.Spans at hespan hfspan
    grind
  nonempty := by
    intro e he
    obtain ⟨v, hv⟩ := (hp.fitting he).start hp
    refine ⟨v, ?_⟩
    unfold Range.contains
    rw [hp.kept.order e he]
    exact Interval.contains_of_lower_eq hv (hp.tidy.nonempty e he)
  canonical := by
    intro e he
    unfold Range.canonical
    rw [Interval.canonical_eq_self (hp.tidy.halfOpen e he)]
  closedOpen := by
    intro e he
    obtain ⟨v, hv⟩ := (hp.fitting he).start hp
    refine ⟨v, hv, ?_⟩
    have hne := hp.tidy.nonempty e he
    have hopen := (hp.tidy.halfOpen e he).2
    -- A half-open range does not end above a value, and one with values does not end before all of
    -- them.
    cases hup : e.range.upper with
    | below w => exact Or.inr ⟨w, rfl⟩
    | top => exact Or.inl rfl
    | above w =>
      rw [hup] at hopen
      exact absurd hopen id
    | bottom =>
      rw [hv, hup] at hne
      cases hne
  enclosed := by
    intro e he
    unfold Range.encloses
    rw [hp.order]
    exact hp.enclosed e he
  contains_iff := by
    intro v
    rw [hp.agree]
    constructor
    · rintro ⟨l, e, he, hspan, -⟩
      exact ⟨e, he, (hp.contains_iff_spans he v).mpr hspan⟩
    · rintro ⟨e, he, hcontains⟩
      exact ⟨e.labels, e, he, (hp.contains_iff_spans he v).mp hcontains, rfl⟩
  unique := by
    intro v e he f hf hev hfv
    exact hp.tidy.eq_of_spans he hf ((hp.contains_iff_spans he v).mp hev)
      ((hp.contains_iff_spans hf v).mp hfv)

/-- **The two accounts of a pool agree after every run.**  Take any lawful domain, any bounds and
    first claims that a pool can be created with, any check, and any requests, met or refused.  Then
    the claims are disjoint, in increasing order, and each of them is a closed-open range of the
    pool with values; and a value is in the set of the claimed values exactly when a claim contains
    it, which is then the only one. -/
theorem run_consistent {d : Domain α} (hd : d.Lawful cmp) {b : Range α} (hb : b.cmp = cmp)
    {name : Text} {check : Range α → Option ρ} {first : List (Option (Range α) × Labels)}
    (hfirst : ∀ e ∈ first, ∀ x, e.1 = some x → x.cmp = cmp) {errors : List (ClaimError α ρ)}
    (hcreate : create name (some b) (some d) check first = .ok (p, errors)) {qs : List (Request α)}
    (hqs : ∀ q ∈ qs, q.ReadIn cmp) {p' : Pool α ρ} (hrun : p.run qs = some p') :
    p'.bounds = b.canonical d ∧ p'.domain = d ∧ p'.Consistent cmp := by
  obtain ⟨hsound, hbounds, hdomain⟩ := within_run (within_create hd hb hfirst hcreate) hqs hrun
  exact ⟨hbounds, hdomain, hsound.consistent⟩

/-! ### A run -/

def sampleLabels (team : String) : Labels :=
  .ofStrings [("team", team)]

def sampleBounds : Range Int64 :=
  ⟨.closedOpen 1 20, Order.int64⟩

/-- Refuses every range with the value one. -/
def sampleCheck (r : Range Int64) : Option Unit :=
  if r.contains 1 then some () else none

def sampleFirst : List (Option (Range Int64) × Labels) :=
  [(some ⟨.closed 2 4, Order.int64⟩, sampleLabels "a")]

/-- A claim is split by a release and by new labels, one request is refused, and the search for a
    free value has to pass the value that the check refuses. -/
def sampleRequests : List (Request Int64) :=
  [.claimRange (some ⟨.closed 5 10, Order.int64⟩) (sampleLabels "b"), .release 7,
    .relabelRange (some ⟨.closed 8 9, Order.int64⟩) (sampleLabels "c"),
    .claim 30 (sampleLabels "d"), .claimFirst (sampleLabels "e")]

theorem readIn_sampleFirst : ∀ e ∈ sampleFirst, ∀ x, e.1 = some x → x.cmp = Order.int64 := by
  simp [sampleFirst]

theorem readIn_sampleRequests : ∀ q ∈ sampleRequests, q.ReadIn Order.int64 := by
  simp [sampleRequests, Request.ReadIn]

/-- The pool before the requests. -/
def samplePool : Pool Int64 Unit :=
  (enterAll ⟨.ofString "ids", sampleBounds, .int64, sampleCheck, .ofSet (.empty Order.int64),
    .empty, []⟩ sampleFirst).1

theorem create_samplePool :
    create (.ofString "ids") (some sampleBounds) (some .int64) sampleCheck sampleFirst =
      .ok (samplePool, []) :=
  rfl

/-- After the requests there are five claims. -/
theorem sampleRequests_consistent :
    ∃ p', samplePool.run sampleRequests = some p' ∧ p'.count = 5 ∧ p'.Consistent Order.int64 := by
  have hcount : (samplePool.run sampleRequests).map count = some 5 := by cbv
  obtain ⟨p', hrun, hcount⟩ := Option.map_eq_some_iff.mp hcount
  exact ⟨p', hrun, hcount,
    (run_consistent Domain.lawful_int64 rfl readIn_sampleFirst create_samplePool
      readIn_sampleRequests hrun).2.2⟩

end Allotment.Pool
