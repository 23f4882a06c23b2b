import Allotment.Pool.Basic
import Allotment.Proofs.Pool.Cutting

namespace Allotment

/-!
# The invariant of a pool

A pool keeps its claims twice: as labelled ranges in a ledger, and as a set of values in which
adjacent claims run together.  All changes keep the two in step, also those that fail.

* `Pool.Balanced`, `Pool.Sound` — the invariant, in any domain and in a lawful one;
* `Ledger.Rewritten`, `Ledger.Traced` — what a change does to the labels, cut by cut, and to the
  claims;
* `Pool.Settled` — a change is refused and leaves the pool as it was, or it keeps the invariant and
  gives new labels to some values and to no others;
* `Pool.claimRange_cases`, `Pool.releaseRange_cases`, `Pool.relabelRange_cases` — the changes of a
  range.
-/

universe u v

variable {α : Type u} {ρ : Type u} {cmp : α → α → Ordering}

/-- The labels after a change: those of the cuts that `r` spans are replaced, and no others.  Labels
    that are absent stand for what is not claimed. -/
def Ledger.Rewritten (cmp : α → α → Ordering) (r : Range α) (labels : Option Labels)
    (before after : List (Claim α)) : Prop :=
  ∀ c l, Held cmp after c l ↔
    r.toInterval.Spans cmp c ∧ labels = some l ∨ ¬ r.toInterval.Spans cmp c ∧ Held cmp before c l

/-- What is claimed after a change. -/
theorem Ledger.Rewritten.exists_held {r : Range α} {labels : Option Labels}
    {before after : List (Claim α)} (h : Rewritten cmp r labels before after) (c : Cut α) :
    (∃ l, Held cmp after c l) ↔
      r.toInterval.Spans cmp c ∧ labels.isSome ∨
        ¬ r.toInterval.Spans cmp c ∧ ∃ l, Held cmp before c l := by
  simp only [h c, Option.isSome_iff_exists]
  grind

/-- The claims after a change: each of them is the range `r` or part of a claim from before. -/
def Ledger.Traced (cmp : α → α → Ordering) (r : Range α) (before after : List (Claim α)) : Prop :=
  ∀ e ∈ after, e.range = r ∨ ∃ x ∈ before, x.range.toInterval.encloses cmp e.range.toInterval

/-- What encloses the range of a change and all claims from before encloses all claims after it. -/
theorem Ledger.Traced.enclosed [Std.TransCmp cmp] {r : Range α} {before after : List (Claim α)}
    (h : Traced cmp r before after) {i : Interval α} (hr : i.encloses cmp r.toInterval)
    (hbefore : ∀ e ∈ before, i.encloses cmp e.range.toInterval) :
    ∀ e ∈ after, i.encloses cmp e.range.toInterval := by
  intro e he
  rcases h e he with heq | ⟨x, hx, hwithin⟩
  · rw [heq]
    exact hr
  · exact Interval.encloses_trans (hbefore x hx) hwithin

namespace Pool

/-- The claims are in order, in half-open form and within the bounds, and the set of the claimed
    values covers a cut exactly when a claim does. -/
structure Balanced (cmp : α → α → Ordering) (p : Pool α ρ) : Prop where
  order : p.bounds.cmp = cmp
  start : ∃ v, p.bounds.lower = .below v
  halfOpen : p.bounds.upper.HalfOpen
  claimed : p.claimed.Sound cmp
  isEditable : p.claimed.isReadOnly = false
  kept : p.ledger.Kept cmp
  tidy : Ledger.Tidy cmp p.claims
  enclosed : ∀ e ∈ p.claims, p.bounds.toInterval.encloses cmp e.range.toInterval
  covers : ∀ k, IntervalSet.Covers cmp p.claimed.set.members k ↔ ∃ l, Ledger.Held cmp p.claims k l

/-- A balanced pool over a lawful domain, in which a range and its half-open form hold the same
    values. -/
structure Sound (cmp : α → α → Ordering) (p : Pool α ρ) : Prop extends Balanced cmp p where
  lawful : p.domain.Lawful cmp

instance {p : Pool α ρ} : Coe (p.Sound cmp) (p.Balanced cmp) :=
  ⟨Sound.toBalanced⟩

variable [Std.TransCmp cmp] {p : Pool α ρ} {c : Range α}

/-- The set of the claimed values holds a value exactly when a claim does. -/
theorem Balanced.agree (hp : p.Balanced cmp) (v : α) :
    p.claimed.set.contains v ↔ ∃ l, Ledger.Held cmp p.claims (.below v) l := by
  rw [hp.claimed.contains_iff, hp.covers]

/-! ### Ranges that fit into a pool -/

/-- A range of the pool in half-open form. -/
structure Fitting (cmp : α → α → Ordering) (p : Pool α ρ) (c : Range α) : Prop where
  order : c.cmp = cmp
  halfOpen : c.toInterval.HalfOpen
  nonempty : Cut.lt cmp c.lower c.upper
  enclosed : p.bounds.toInterval.encloses cmp c.toInterval

/-- What is admitted is a fitting range with the values of the range that was asked for. -/
theorem fitting_of_fit (hp : p.Balanced cmp) {x : Range α} (hx : x.cmp = cmp)
    (h : p.fit (some x) = .ok c) :
    Fitting cmp p c ∧ (p.domain.Lawful cmp → ∀ v, c.contains v = x.contains v) := by
  unfold fit at h
  simp only at h
  split at h
  · cases h
  split at h
  · cases h
  split at h
  · cases h
  -- None of the three checks has refused.
  rename_i hempty hencloses
  cases h
  have hc : (x.canonical p.domain).cmp = cmp := hx
  refine ⟨⟨hc, Interval.halfOpen_canonical _, ?_, ?_⟩, ?_⟩
  · rw [Bool.not_eq_true, Range.isEmpty, hc, Interval.isEmpty_eq_false_iff] at hempty
    exact hempty
  · simpa only [Bool.not_eq_true', Bool.not_eq_false, Range.encloses, hp.order] using hencloses
  · intro hlawful v
    unfold Range.contains
    rw [hc, hx]
    exact Interval.contains_canonical hlawful x.toInterval v

omit [Std.TransCmp cmp] in
/-- What fits is the half-open form of a valid range. -/
theorem eq_canonical_of_fit {r : Range α} (h : p.fit (some r) = .ok c) :
    c = r.canonical p.domain ∧ r.isValid := by
  simp only [fit] at h
  split at h
  · cases h
  rename_i hvalid
  split at h
  · cases h
  split at h
  · cases h
  cases h
  exact ⟨rfl, by simpa using hvalid⟩

omit [Std.TransCmp cmp] in
/-- What passes fits, and the check has nothing against it. -/
theorem fit_of_vet {r : Option (Range α)} (h : p.vet r = .ok c) :
    p.fit r = .ok c ∧ p.check c = none := by
  cases hfit : p.fit r with
  | error e =>
    simp only [vet, hfit, bind, Except.bind] at h
    cases h
  | ok c' =>
    simp only [vet, hfit, bind, Except.bind] at h
    split at h
    · cases h
    · rename_i hpasses
      cases h
      exact ⟨rfl, hpasses⟩

omit [Std.TransCmp cmp] in
/-- What passes is the half-open form of a valid range, and the check has nothing against it. -/
theorem eq_canonical_of_vet {r : Range α} (h : p.vet (some r) = .ok c) :
    c = r.canonical p.domain ∧ r.isValid ∧ p.check c = none := by
  obtain ⟨hfit, hpasses⟩ := fit_of_vet h
  obtain ⟨heq, hvalid⟩ := eq_canonical_of_fit hfit
  exact ⟨heq, hvalid, hpasses⟩

/-- What passes the check is a fitting range. -/
theorem fitting_of_vet (hp : p.Balanced cmp) {r : Option (Range α)}
    (hr : ∀ x, r = some x → x.cmp = cmp) (h : p.vet r = .ok c) :
    Fitting cmp p c ∧ p.check c = none ∧
      (p.domain.Lawful cmp → ∀ v, c.contains v = r.any (·.contains v)) := by
  obtain ⟨hfit, hpasses⟩ := fit_of_vet h
  cases r with
  | none => cases hfit
  | some x =>
    obtain ⟨hc, hcontains⟩ := fitting_of_fit hp (hr x rfl) hfit
    exact ⟨hc, hpasses, hcontains⟩

/-- A fitting range starts at a value. -/
theorem Fitting.start (hp : p.Balanced cmp) (hc : Fitting cmp p c) : ∃ v, c.lower = .below v := by
  obtain ⟨v, hv⟩ := hp.start
  have hlow := ((Interval.encloses_iff _ _).mp hc.enclosed).1
  refine hc.halfOpen.1.exists_below ?_ hc.nonempty
  intro hbottom
  rw [hv, hbottom] at hlow
  cases hlow

/-- A range that fits has a place to start: its half-open form starts at a value, and the form of
    the first cut is the first cut. -/
theorem isBounded_of_fit (hp : p.Balanced cmp) {r : Range α} (hr : r.cmp = cmp)
    (h : p.fit (some r) = .ok c) : r.lower.isBounded := by
  obtain ⟨v, hv⟩ := (fitting_of_fit hp hr h).1.start hp
  obtain ⟨rfl, hvalid⟩ := eq_canonical_of_fit h
  have hstart : r.lower.canonical p.domain = .below v := hv
  cases hlower : r.lower with
  | below w => rfl
  | above w => rfl
  | bottom =>
    rw [hlower] at hstart
    cases hstart
  | top =>
    simp [Range.isValid, Interval.isValid, hlower, Cut.isTop] at hvalid

omit [Std.TransCmp cmp] in
/-- All claims of a balanced pool fit into it. -/
theorem Balanced.fitting (hp : p.Balanced cmp) {e : Claim α} (he : e ∈ p.claims) :
    Fitting cmp p e.range :=
  ⟨hp.kept.order e he, hp.tidy.halfOpen e he, hp.tidy.nonempty e he, hp.enclosed e he⟩

omit [Std.TransCmp cmp] in
/-- Each change of a range asks first whether the range is admitted. -/
theorem vet_eq_of_answer {β : Type v} {r : Range α}
    {f : Pool α ρ → Range α → Attempt (Pool α ρ) (ClaimError α ρ) β} {answer : β}
    (h : ((Attempt.ofExcept p (p.vet (some r))).andThen f).answer = .ok answer) :
    p.vet (some r) = .ok (r.canonical p.domain) := by
  cases hvet : p.vet (some r) with
  | error e =>
    rw [hvet] at h
    cases h
  | ok c => rw [(eq_canonical_of_vet hvet).1]

/-! ### Parts of a change -/

omit [Std.TransCmp cmp] in
/-- A pool with another set and other claims is balanced when these are. -/
theorem Balanced.update (hp : p.Balanced cmp) {cell : Cell α} {l : Ledger α}
    (journal : List (Event α)) (hcell : cell.Sound cmp) (hedit : cell.isReadOnly = false)
    (hkept : l.Kept cmp) (htidy : Ledger.Tidy cmp l.claims)
    (henclosed : ∀ e ∈ l.claims, p.bounds.toInterval.encloses cmp e.range.toInterval)
    (hcovers : ∀ k, IntervalSet.Covers cmp cell.set.members k ↔
      ∃ labels, Ledger.Held cmp l.claims k labels) :
    Balanced cmp { p with claimed := cell, ledger := l, journal := journal } where
  order := hp.order
  start := hp.start
  halfOpen := hp.halfOpen
  claimed := hcell
  isEditable := hedit
  kept := hkept
  tidy := htidy
  enclosed := henclosed
  covers := hcovers

/-- Adding a range that is not empty to the set of the claimed values, or removing it, does not
    fail. -/
theorem editClaimed_eq (hp : p.claimed.Sound cmp) (hedit : p.claimed.isReadOnly = false)
    (hc : c.cmp = cmp) (hlt : Cut.lt cmp c.lower c.upper)
    {f : IntervalSet α → Interval α → IntervalSet α} {op : Prop → Prop → Prop} (hf : Cell.Acts f op)
    {e : Edit α} (he : p.claimed.apply e = p.claimed.applyRange f (some c)) :
    p.editClaimed e = .done { p with claimed := (p.claimed.apply e).1 } () ∧
      (p.claimed.apply e).1.Sound cmp ∧ (p.claimed.apply e).1.isReadOnly = false ∧
      ∀ k, IntervalSet.Covers cmp (p.claimed.apply e).1.set.members k ↔
        op (IntervalSet.Covers cmp p.claimed.set.members k) (c.toInterval.Spans cmp k) := by
  obtain ⟨hsound, hcovers⟩ := Cell.applyRange_spec hf hp (r := some c)
    (Range.Optional.readIn_some hc)
  have hnone : (p.claimed.apply e).2 = [] := by
    rw [he, Cell.applyRange_of_lt hedit hc hlt]
  refine ⟨?_, he ▸ hsound, by simpa using hedit, he ▸ hcovers hedit⟩
  unfold editClaimed
  rw [show p.claimed.apply e = ((p.claimed.apply e).1, []) from Prod.ext rfl hnone]
  rfl

/-- A fitting range is valid and not empty. -/
theorem Fitting.isValid_isEmpty (hc : Fitting cmp p c) :
    Range.Optional.isValid (some c) = true ∧ Range.Optional.isEmpty (some c) = false := by
  constructor
  · show c.toInterval.isValid c.cmp = true
    rw [hc.order]
    exact Interval.isValid_of_lt hc.nonempty
  · show c.toInterval.isEmpty c.cmp = false
    rw [hc.order, Interval.isEmpty_eq_false_iff]
    exact hc.nonempty

/-- A valid range whose half-open form fits is admitted in this form, unless the check speaks
    against it. -/
theorem vet_eq_of_fitting (hp : p.Balanced cmp) {r : Range α} (hvalid : r.isValid)
    (hfit : Fitting cmp p (r.canonical p.domain))
    (hpasses : p.check (r.canonical p.domain) = none) :
    p.vet (some r) = .ok (r.canonical p.domain) := by
  have hempty : (r.canonical p.domain).isEmpty = false := hfit.isValid_isEmpty.2
  have hencloses : p.bounds.encloses (r.canonical p.domain) = true := by
    unfold Range.encloses
    rw [hp.order]
    exact hfit.enclosed
  have hok : p.fit (some r) = .ok (r.canonical p.domain) := by
    simp only [fit, hvalid, hempty, hencloses, Bool.not_true, Bool.false_eq_true, if_false]
  simp only [vet, hok, bind, Except.bind, hpasses]
  rfl

/-- A fitting range intersects the set of the claimed values when a member of the set overlaps
    it. -/
theorem intersects_iff_overlaps (hp : p.Balanced cmp) (hc : Fitting cmp p c) :
    p.claimed.set.intersects (some c) = true ↔
      ∃ m ∈ p.claimed.set.members, m.overlaps cmp c.toInterval := by
  obtain ⟨hvalid, hempty⟩ := hc.isValid_isEmpty
  unfold IntervalSet.intersects
  rw [hvalid, hempty]
  obtain rfl := hp.claimed.order
  exact IntervalSet.overlapsInterval_iff hp.claimed.normal c.toInterval

/-- A member of the set of the claimed values encloses a fitting range when the set covers all its
    cuts. -/
theorem encloses_of_covers (hp : p.Balanced cmp) (hc : Fitting cmp p c)
    (h : ∀ k, c.toInterval.Spans cmp k → IntervalSet.Covers cmp p.claimed.set.members k) :
    p.claimed.set.encloses (some c) = true := by
  have hne := hc.nonempty
  unfold IntervalSet.encloses
  rw [hc.isValid_isEmpty.1, Bool.true_and]
  obtain rfl := hp.claimed.order
  exact IntervalSet.enclosesInterval_of_covers hp.claimed.normal hne h

/-- A fitting range with a claimed value is found to intersect the set of the claimed values. -/
theorem intersects_of_held (hp : p.Balanced cmp) (hc : Fitting cmp p c) {v : α}
    (hv : c.toInterval.Spans cmp (.below v)) (hheld : ∃ l, Ledger.Held cmp p.claims (.below v) l) :
    p.claimed.set.intersects (some c) = true := by
  obtain ⟨m, hm, hspan⟩ := (hp.claimed.contains_iff v).mp ((hp.agree v).mpr hheld)
  have hmne := hp.claimed.normal.nonempty m hm
  have hcne := hc.nonempty
  refine (intersects_iff_overlaps hp hc).mpr ⟨m, hm, ?_⟩
  rw [Interval.overlaps_iff]
  unfold Interval.Spans at hspan hv
  grind

/-- A fitting range without a claimed value overlaps no claim, since what two half-open ranges share
    starts at a value. -/
theorem free_of_not_intersects (hp : p.Balanced cmp) (hc : Fitting cmp p c)
    (h : p.claimed.set.intersects (some c) = false) :
    ∀ e ∈ p.claims, Interval.Apart cmp e.range.toInterval c.toInterval := by
  intro e he
  by_cases hapart : Interval.Apart cmp e.range.toInterval c.toInterval
  · exact hapart
  · have he' := hp.fitting he
    obtain ⟨v, hev, hcv⟩ := Interval.exists_spans_of_not_apart (he'.start hp)
      (hc.start hp) he'.nonempty hc.nonempty hapart
    have hinter := intersects_of_held hp hc hcv ⟨e.labels, e, he, hev, rfl⟩
    rw [h] at hinter
    cases hinter

/-! ### Clearing a range and claiming it -/

/-- A ledger from which a range of the pool was cut. -/
structure Cleared (cmp : α → α → Ordering) (p : Pool α ρ) (c : Range α) (l : Ledger α) : Prop where
  kept : l.Kept cmp
  tidy : Ledger.Tidy cmp l.claims
  free : ∀ e ∈ l.claims, Interval.Apart cmp e.range.toInterval c.toInterval
  traced : Ledger.Traced cmp c p.claims l.claims
  rewritten : Ledger.Rewritten cmp c none p.claims l.claims

/-- A range that overlaps no claim need not be cut. -/
theorem cleared_of_free (hp : p.Balanced cmp)
    (hfree : ∀ e ∈ p.claims, Interval.Apart cmp e.range.toInterval c.toInterval) :
    Cleared cmp p c p.ledger := by
  refine ⟨hp.kept, hp.tidy, hfree, fun e he => Or.inr ⟨e, he, Interval.encloses_refl _⟩, ?_⟩
  intro k l
  have hout : Ledger.Held cmp p.claims k l → ¬ c.toInterval.Spans cmp k :=
    Ledger.not_spans_of_held hfree
  simp only [reduceCtorEq, and_false, false_or]
  exact ⟨fun h => ⟨hout h, h⟩, fun h => h.2⟩

/-- Cutting a fitting range out of the claims does not fail. -/
theorem cutClaims_spec (hp : p.Balanced cmp) (hc : Fitting cmp p c) :
    ∃ l : Ledger α, p.cutClaims c = .done { p with ledger := l } () ∧ Cleared cmp p c l := by
  obtain ⟨l, hcut, hkept, htidy, hfree, hwithin, hheld⟩ :=
    Ledger.cut_spec p.domain hp.kept hp.tidy hc.order hc.halfOpen hc.nonempty
  refine ⟨l, ?_, hkept, htidy, hfree, ?_, ?_⟩
  · unfold cutClaims
    rw [hcut]
    rfl
  · exact fun x hx => Or.inr (hwithin x hx)
  · intro k labels
    rw [hheld]
    simp only [reduceCtorEq, and_false, false_or]
    exact and_comm

/-- A claim put where the ledger was cleared. -/
theorem Cleared.put {l : Ledger α} (h : Cleared cmp p c l) (hc : Fitting cmp p c)
    (labels : Labels) :
    (l.put ⟨c, labels⟩).Kept cmp ∧ Ledger.Tidy cmp (l.put ⟨c, labels⟩).claims ∧
      Ledger.Traced cmp c p.claims (l.put ⟨c, labels⟩).claims ∧
      Ledger.Rewritten cmp c (some labels) p.claims (l.put ⟨c, labels⟩).claims := by
  obtain ⟨hkept, htidy, hmem⟩ := Ledger.put_spec h.kept h.tidy
    (e := ⟨c, labels⟩) hc.order hc.halfOpen hc.nonempty h.free
  refine ⟨hkept, htidy, ?_, ?_⟩
  · intro e he
    rcases (hmem e).mp he with rfl | he'
    · exact Or.inl rfl
    · exact h.traced e he'
  · intro k l'
    -- The new claim holds its own cuts, the others hold what they held.
    have hheld : Ledger.Held cmp (l.put ⟨c, labels⟩).claims k l' ↔
        (c.toInterval.Spans cmp k ∧ labels = l') ∨ Ledger.Held cmp l.claims k l' := by
      unfold Ledger.Held
      simp only [hmem, or_and_right, exists_or, exists_eq_left]
    rw [hheld, h.rewritten k l', Option.some.injEq]
    simp only [reduceCtorEq, and_false, false_or]

/-! ### Changes -/

/-- A change that was made: the pool stays balanced, its bounds, its domain and its check stay, and
    the labels of one range are replaced. -/
structure Changed (cmp : α → α → Ordering) (c : Range α) (labels : Option Labels)
    (p p' : Pool α ρ) : Prop where
  fitting : Fitting cmp p c
  balanced : p'.Balanced cmp
  bounds : p'.bounds = p.bounds
  domain : p'.domain = p.domain
  check : p'.check = p.check
  traced : Ledger.Traced cmp c p.claims p'.claims
  rewritten : Ledger.Rewritten cmp c labels p.claims p'.claims

omit [Std.TransCmp cmp] in
/-- A change keeps a pool sound. -/
theorem Changed.sound {labels : Option Labels} {p' : Pool α ρ} (h : Changed cmp c labels p p')
    (hp : p.Sound cmp) : p'.Sound cmp :=
  ⟨h.balanced, h.domain ▸ hp.lawful⟩

/-- A range that the check of the pool has nothing against. -/
def Passes (p : Pool α ρ) (c : Range α) : Prop :=
  p.check c = none

/-- The range that is admitted when one asks for `r`. -/
def Admits (p : Pool α ρ) (r : Option (Range α)) (c : Range α) : Prop :=
  p.vet r = .ok c

/-- A request was refused, and then the pool is as it was, or it changed the labels of a range with
    the property `passes`.  In a lawful domain the values of this range are those that the request
    is about; which ones these are may depend on the answer. -/
def Settled {β : Type v} (cmp : α → α → Ordering) (passes : Range α → Prop) (about : β → α → Bool)
    (labels : Option Labels) (p : Pool α ρ) (a : Attempt (Pool α ρ) (ClaimError α ρ) β) : Prop :=
  (∃ e, a = .refuse p e) ∨
    ∃ b c p', a = .done p' b ∧ passes c ∧ (p.domain.Lawful cmp → ∀ v, c.contains v = about b v) ∧
      Changed cmp c labels p p'

omit [Std.TransCmp cmp] in
/-- What passes a check passes a weaker one. -/
theorem Settled.mono {β : Type v} {passes passes' : Range α → Prop} {about : β → α → Bool}
    {labels : Option Labels} {a : Attempt (Pool α ρ) (ClaimError α ρ) β}
    (h : Settled cmp passes about labels p a) (hpasses : ∀ c, passes c → passes' c) :
    Settled cmp passes' about labels p a := by
  rcases h with h | ⟨b, c, p', ha, hc, hrest⟩
  · exact Or.inl h
  · exact Or.inr ⟨b, c, p', ha, hpasses c hc, hrest⟩

omit [Std.TransCmp cmp] in
/-- What is admitted passes the check. -/
theorem Admits.passes {r : Option (Range α)} (h : p.Admits r c) : p.Passes c := by
  cases r with
  | none => cases h
  | some x => exact (eq_canonical_of_vet h).2.2

/-- A range without a claimed value is entered. -/
theorem enter_of_free (hp : p.Balanced cmp) (hc : Fitting cmp p c) (r : Range α) (labels : Labels)
    (hfree : p.claimed.set.intersects (some c) = false) :
    ∃ p', p.enter r c labels = .done p' () ∧ Changed cmp c (some labels) p p' := by
  have hcleared := cleared_of_free hp (free_of_not_intersects hp hc hfree)
  obtain ⟨hkept, htidy, htraced, hrewritten⟩ := hcleared.put hc labels
  obtain ⟨hedit, hsound, heditable, hcovers⟩ :=
    editClaimed_eq hp.claimed hp.isEditable hc.order hc.nonempty Cell.acts_insert
      (e := .add (some c)) rfl
  refine ⟨{ p with
    claimed := (p.claimed.apply (.add (some c))).1
    ledger := p.ledger.put ⟨c, labels⟩
    journal := p.journal ++ [.claimed c labels] }, ?_, hc, ?_, rfl, rfl, rfl, htraced, hrewritten⟩
  · rw [enter, hfree, hedit]
    rfl
  · refine hp.update _ hsound heditable hkept htidy (htraced.enclosed hc.enclosed hp.enclosed) ?_
    intro k
    -- The set of the claimed values gets the range, and so does the ledger.
    rw [hcovers k, hrewritten.exists_held, hp.covers k]
    simp only [Option.isSome_some, and_true]
    grind

omit [Std.TransCmp cmp] in
/-- A range with a claimed value cannot be claimed. -/
theorem enter_of_intersects (r : Range α) (labels : Labels)
    (h : p.claimed.set.intersects (some c) = true) :
    p.enter r c labels = .refuse p (.alreadyClaimed r) := by
  rw [enter, h]
  rfl

/-- Entering a claim is refused, or it adds the claim to the others. -/
theorem enter_cases (hp : p.Balanced cmp) (hc : Fitting cmp p c) (r : Range α) (labels : Labels) :
    p.enter r c labels = .refuse p (.alreadyClaimed r) ∨
      ∃ p', p.enter r c labels = .done p' () ∧ Changed cmp c (some labels) p p' := by
  cases hinter : p.claimed.set.intersects (some c) with
  | true => exact Or.inl (enter_of_intersects r labels hinter)
  | false => exact Or.inr (enter_of_free hp hc r labels hinter)

/-- Claiming a range, with the check or without it. -/
theorem claimRange_cases (hp : p.Balanced cmp) {r : Option (Range α)}
    (hr : ∀ x, r = some x → x.cmp = cmp) (labels : Labels) :
    Settled cmp (p.Admits r) (fun _ v => r.any (·.contains v)) (some labels) p
      (p.claimRange r labels) := by
  unfold claimRange
  cases hvet : p.vet r with
  | error e => exact Or.inl ⟨e, rfl⟩
  | ok c =>
    obtain ⟨hc, -, hcontains⟩ := fitting_of_vet hp hr hvet
    rw [Attempt.ofExcept_ok, Attempt.andThen_done]
    rcases enter_cases hp hc (r.getD c) labels with h | ⟨p', h, hchanged⟩
    · exact Or.inl ⟨_, h⟩
    · exact Or.inr ⟨(), c, p', h, hvet, hcontains, hchanged⟩

/-- A claim without the check of the pool has to fit, no more. -/
theorem claimUnchecked_cases (hp : p.Balanced cmp) {r : Option (Range α)}
    (hr : ∀ x, r = some x → x.cmp = cmp) (labels : Labels) :
    Settled cmp (fun c => p.fit r = .ok c) (fun _ v => r.any (·.contains v)) (some labels) p
      (p.claimUnchecked r labels) := by
  unfold claimUnchecked
  cases r with
  | none => exact Or.inl ⟨_, rfl⟩
  | some x =>
    cases hfit : p.fit (some x) with
    | error e => exact Or.inl ⟨e, rfl⟩
    | ok c =>
      obtain ⟨hc, hcontains⟩ := fitting_of_fit hp (hr x rfl) hfit
      rw [Attempt.ofExcept_ok, Attempt.andThen_done]
      rcases enter_cases hp hc x labels with h | ⟨p', h, hchanged⟩
      · exact Or.inl ⟨_, h⟩
      · exact Or.inr ⟨(), c, p', h, rfl, hcontains, hchanged⟩

/-- A range that is admitted is claimed exactly when it intersects no claim. -/
theorem claimRange_answer_of_vet (hp : p.Balanced cmp) {r : Range α} (hc : Fitting cmp p c)
    (hvet : p.vet (some r) = .ok c) (labels : Labels) :
    (p.claimRange (some r) labels).answer = .ok () ↔ p.claimed.set.intersects (some c) = false := by
  have henter : p.claimRange (some r) labels = p.enter r c labels := by
    rw [claimRange, hvet]
    rfl
  rw [henter]
  cases hinter : p.claimed.set.intersects (some c) with
  | true => simp [enter_of_intersects r labels hinter]
  | false =>
    obtain ⟨p', hdone, -⟩ := enter_of_free hp hc r labels hinter
    simp [hdone]

/-- A claim that is met is put beside the claims from before. -/
theorem mem_claims_of_claimRange (hp : p.Balanced cmp) {r : Range α} (hr : r.cmp = cmp)
    {labels : Labels} (h : (p.claimRange (some r) labels).answer = .ok ()) (e : Claim α) :
    e ∈ (p.claimRange (some r) labels).state.claims ↔
      e = ⟨r.canonical p.domain, labels⟩ ∨ e ∈ p.claims := by
  have hvet := vet_eq_of_answer h
  have hc := (fitting_of_fit hp hr (fit_of_vet hvet).1).1
  have hfree := (claimRange_answer_of_vet hp hc hvet labels).mp h
  obtain ⟨hedit, -⟩ := editClaimed_eq hp.claimed hp.isEditable hc.order hc.nonempty Cell.acts_insert
    (e := .add (some (r.canonical p.domain))) rfl
  have hstate : (p.claimRange (some r) labels).state.ledger =
      p.ledger.put ⟨r.canonical p.domain, labels⟩ := by
    rw [claimRange, hvet, Attempt.ofExcept_ok, Attempt.andThen_done, enter, hfree, hedit]
    rfl
  rw [claims, hstate]
  exact (Ledger.put_spec hp.kept hp.tidy (e := ⟨_, labels⟩) hc.order hc.halfOpen hc.nonempty
    (free_of_not_intersects hp hc hfree)).2.2 e

/-- A fitting range can always be released. -/
theorem release_fitting (hp : p.Balanced cmp) (hc : Fitting cmp p c) {r : Option (Range α)}
    (hvet : p.vet r = .ok c) : ∃ p', p.releaseRange r = .done p' () ∧ Changed cmp c none p p' := by
  obtain ⟨l, hcut, hcleared⟩ := cutClaims_spec hp hc
  obtain ⟨hedit, hsound, heditable, hcovers⟩ :=
    editClaimed_eq (p := { p with ledger := l }) hp.claimed hp.isEditable hc.order hc.nonempty
      Cell.acts_erase (e := .remove (some c)) rfl
  refine ⟨{ p with
    claimed := (p.claimed.apply (.remove (some c))).1
    ledger := l
    journal := p.journal ++ [.released c] }, ?_, hc, ?_, rfl, rfl, rfl, hcleared.traced,
      hcleared.rewritten⟩
  · rw [releaseRange, hvet, Attempt.ofExcept_ok, Attempt.andThen_done, hcut, Attempt.andThen_done,
      hedit]
    rfl
  · refine hp.update _ hsound heditable hcleared.kept hcleared.tidy
      (hcleared.traced.enclosed hc.enclosed hp.enclosed) ?_
    intro k
    -- The set of the claimed values loses the range, and so does the ledger.
    rw [hcovers k, hcleared.rewritten.exists_held, ← hp.covers k]
    simp only [Option.isSome_none, Bool.false_eq_true, and_false, false_or]
    exact and_comm

/-- Releasing a range. -/
theorem releaseRange_cases (hp : p.Balanced cmp) {r : Option (Range α)}
    (hr : ∀ x, r = some x → x.cmp = cmp) :
    Settled cmp (p.Admits r) (fun _ v => r.any (·.contains v)) none p (p.releaseRange r) := by
  cases hvet : p.vet r with
  | error e =>
    unfold releaseRange
    rw [hvet]
    exact Or.inl ⟨e, rfl⟩
  | ok c =>
    obtain ⟨hc, -, hcontains⟩ := fitting_of_vet hp hr hvet
    obtain ⟨p', hdone, hchanged⟩ := release_fitting hp hc hvet
    exact Or.inr ⟨(), c, p', hdone, hvet, hcontains, hchanged⟩

/-- All of a range that the claimed set encloses is claimed. -/
theorem exists_held_of_encloses (hp : p.Balanced cmp) (h : p.claimed.set.encloses (some c) = true)
    {k : Cut α} (hk : c.toInterval.Spans cmp k) : ∃ l, Ledger.Held cmp p.claims k l := by
  rw [← hp.covers]
  obtain rfl := hp.claimed.order
  unfold IntervalSet.encloses at h
  rw [Bool.and_eq_true] at h
  exact IntervalSet.covers_of_enclosesInterval hp.claimed.normal h.2 hk

/-- A range whose values are claimed already gets new labels, and the set of the claimed values
    stays. -/
theorem relabel_claimed (hp : p.Balanced cmp) (hc : Fitting cmp p c) {r : Option (Range α)}
    (hvet : p.vet r = .ok c) (labels : Labels)
    (hencloses : p.claimed.set.encloses (some c) = true) :
    ∃ p', p.relabelRange r labels = .done p' () ∧ Changed cmp c (some labels) p p' := by
  obtain ⟨l, hcut, hcleared⟩ := cutClaims_spec hp hc
  obtain ⟨hkept, htidy, htraced, hrewritten⟩ := hcleared.put hc labels
  refine ⟨{ p with
    ledger := l.put ⟨c, labels⟩
    journal := p.journal ++ [.relabelled c labels] },
    ?_, hc, ?_, rfl, rfl, rfl, htraced, hrewritten⟩
  · rw [relabelRange, hvet, Attempt.ofExcept_ok, Attempt.andThen_done, hencloses, hcut]
    rfl
  · refine hp.update _ hp.claimed hp.isEditable hkept htidy
      (htraced.enclosed hc.enclosed hp.enclosed) ?_
    intro k
    -- The set of the claimed values is left as it was, since all of the range was claimed before.
    have hheld := exists_held_of_encloses hp hencloses (k := k)
    rw [hrewritten.exists_held, hp.covers k]
    simp only [Option.isSome_some, and_true]
    grind

omit [Std.TransCmp cmp] in
/-- A range that is not claimed as a whole gets no new labels. -/
theorem relabelRange_of_not_encloses {r : Option (Range α)} (hvet : p.vet r = .ok c)
    (labels : Labels) (h : p.claimed.set.encloses (some c) = false) :
    p.relabelRange r labels = .refuse p (.notClaimed (r.getD c)) := by
  rw [relabelRange, hvet, Attempt.ofExcept_ok, Attempt.andThen_done, h]
  rfl

/-- A range that is admitted gets new labels exactly when the claimed set encloses it. -/
theorem relabelRange_answer_of_vet (hp : p.Balanced cmp) (hc : Fitting cmp p c)
    {r : Option (Range α)} (hvet : p.vet r = .ok c) (labels : Labels) :
    (p.relabelRange r labels).answer = .ok () ↔ p.claimed.set.encloses (some c) = true := by
  cases hencloses : p.claimed.set.encloses (some c) with
  | false => simp [relabelRange_of_not_encloses hvet labels hencloses]
  | true =>
    obtain ⟨p', hdone, -⟩ := relabel_claimed hp hc hvet labels hencloses
    simp [hdone]

/-- Giving a range new labels. -/
theorem relabelRange_cases (hp : p.Balanced cmp) {r : Option (Range α)}
    (hr : ∀ x, r = some x → x.cmp = cmp) (labels : Labels) :
    Settled cmp (p.Admits r) (fun _ v => r.any (·.contains v)) (some labels) p
      (p.relabelRange r labels) := by
  cases hvet : p.vet r with
  | error e =>
    unfold relabelRange
    rw [hvet]
    exact Or.inl ⟨e, rfl⟩
  | ok c =>
    obtain ⟨hc, -, hcontains⟩ := fitting_of_vet hp hr hvet
    cases hencloses : p.claimed.set.encloses (some c) with
    | false => exact Or.inl ⟨_, relabelRange_of_not_encloses hvet labels hencloses⟩
    | true =>
      obtain ⟨p', hdone, hchanged⟩ := relabel_claimed hp hc hvet labels hencloses
      exact Or.inr ⟨(), c, p', hdone, hvet, hcontains, hchanged⟩

end Pool

end Allotment
