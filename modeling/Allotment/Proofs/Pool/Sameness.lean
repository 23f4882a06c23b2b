import Allotment.Proofs.Pool.Admission
import Allotment.Proofs.Pool.Free
import Allotment.Proofs.Pool.Labelling

namespace Allotment

/-!
# Claims that come to the same

A range can be claimed in the form in which it is written or in its half-open form, at once or value
by value.  Whether it can be claimed, and what is claimed afterwards, is a question of its values
alone.

* `Attempt.Alike` — attempts that differ at most in the words of an error;
* `Pool.claimRange_alike_canonical` — a range is claimed as its half-open form is;
* `Pool.claimRange_grows` — a claim adds the values of its range to those that are claimed, and no
  others;
* `Pool.claimed_equal`, `Pool.free_equal` — pools with the same claimed values have equal sets of
  claimed and of free values.
-/

universe u v w x

/-! ### Attempts that differ in their errors -/

/-- Two attempts that leave the same state, and of which one is met when the other is, with the same
    answer. -/
structure Attempt.Alike {σ : Type u} {ε : Type v} {δ : Type w} {β : Type x} (a : Attempt σ ε β)
    (b : Attempt σ δ β) : Prop where
  state_eq : a.state = b.state
  answer_iff : ∀ answer, a.answer = .ok answer ↔ b.answer = .ok answer

namespace Attempt

variable {σ : Type u} {ε δ δ' : Type v} {β : Type x}

/-- Refusals are alike, for whatever reason. -/
theorem alike_refuse (s : σ) (e : ε) (e' : δ) :
    (refuse s e : Attempt σ ε β).Alike (refuse s e' : Attempt σ δ β) :=
  ⟨rfl, fun _ => by simp⟩

/-- Errors can be told in other words. -/
theorem alike_mapError (a : Attempt σ ε β) (f : ε → δ) : (a.mapError f).Alike a :=
  ⟨rfl, fun _ => mapError_answer_eq_ok⟩

theorem Alike.symm {a : Attempt σ ε β} {b : Attempt σ δ β} (h : a.Alike b) : b.Alike a :=
  ⟨h.state_eq.symm, fun answer => (h.answer_iff answer).symm⟩

theorem Alike.trans {a : Attempt σ ε β} {b : Attempt σ δ β} {c : Attempt σ δ' β} (hab : a.Alike b)
    (hbc : b.Alike c) : a.Alike c :=
  ⟨hab.state_eq.trans hbc.state_eq,
    fun answer => (hab.answer_iff answer).trans (hbc.answer_iff answer)⟩

end Attempt

namespace Pool

variable {α : Type u} {ρ : Type u} {cmp : α → α → Ordering} [Std.TransCmp cmp] {p q : Pool α ρ}
    {r c : Range α}

/-! ### A range and its half-open form -/

/-- A valid range passes exactly when its half-open form does. -/
theorem vet_canonical_iff (hp : p.Balanced cmp) (hr : r.cmp = cmp) (hvalid : r.isValid) :
    p.vet (some r) = .ok c ↔ p.vet (some (r.canonical p.domain)) = .ok c := by
  constructor
  · intro h
    obtain ⟨rfl, -, hpasses⟩ := eq_canonical_of_vet h
    have hfit := (fitting_of_vet hp (Range.Optional.readIn_some hr) h).1
    -- The half-open form is its own half-open form, and this is all that the check of the pool
    -- sees.
    have hself := r.canonical_canonical (d := p.domain)
    have hvet := vet_eq_of_fitting (r := r.canonical p.domain) hp hfit.isValid_isEmpty.1
      (hself.symm ▸ hfit) (hself.symm ▸ hpasses)
    rwa [hself] at hvet
  · intro h
    have hcanonical : (r.canonical p.domain).cmp = cmp := hr
    have hfit := (fitting_of_vet hp (Range.Optional.readIn_some hcanonical) h).1
    obtain ⟨rfl, -, hpasses⟩ := eq_canonical_of_vet h
    rw [Range.canonical_canonical] at hfit hpasses ⊢
    exact vet_eq_of_fitting hp hvalid hfit hpasses

omit [Std.TransCmp cmp] in
/-- The range that was asked for is only named in an error. -/
theorem enter_alike (p : Pool α ρ) (r s c : Range α) (labels : Labels) :
    (p.enter r c labels).Alike (p.enter s c labels) := by
  unfold enter
  split
  · exact Attempt.alike_refuse p _ _
  · exact ⟨rfl, fun _ => Iff.rfl⟩

/-- **A range is claimed as its half-open form is.** -/
theorem claimRange_alike_canonical (hp : p.Balanced cmp) (hr : r.cmp = cmp) (hvalid : r.isValid)
    (labels : Labels) :
    (p.claimRange (some r) labels).Alike (p.claimRange (some (r.canonical p.domain)) labels) := by
  unfold claimRange
  cases hvet : p.vet (some r) with
  | ok c =>
    rw [(vet_canonical_iff hp hr hvalid).mp hvet]
    exact p.enter_alike _ _ c labels
  | error e =>
    cases hvet' : p.vet (some (r.canonical p.domain)) with
    | ok c =>
      rw [(vet_canonical_iff hp hr hvalid).mpr hvet'] at hvet
      cases hvet
    | error e' => exact Attempt.alike_refuse p e e'

/-- A claim that is not met is refused, and leaves the pool as it was. -/
theorem claimRange_of_not_ok (hp : p.Balanced cmp) (hr : r.cmp = cmp) {labels : Labels}
    (h : (p.claimRange (some r) labels).answer ≠ .ok ()) :
    ∃ e, p.claimRange (some r) labels = .refuse p e := by
  rcases claimRange_cases hp (Range.Optional.readIn_some hr) labels with hrefuse
    | ⟨_, c, p', heq, -⟩
  · exact hrefuse
  · rw [heq] at h
    exact absurd rfl h

/-! ### What a claim adds -/

/-- A range gets labels, and its values are claimed from then on. -/
theorem Changed.isClaimed_iff {labels : Labels} (hp : p.Balanced cmp)
    (h : Changed cmp c (some labels) p q) (v : α) :
    q.isClaimed v ↔ c.contains v ∨ p.isClaimed v := by
  rw [isClaimed_of_changed hp h]
  cases c.contains v <;> simp

/-- A claim adds the values of its range to those that are claimed, and no others. -/
theorem claimRange_grows {b : Range α} {d : Domain α} {check : Range α → Option ρ}
    (hp : Within cmp b d check p) (hr : r.cmp = cmp) {labels : Labels}
    (h : (p.claimRange (some r) labels).answer = .ok ()) :
    Within cmp b d check (p.claimRange (some r) labels).state ∧
      ∀ v, (p.claimRange (some r) labels).state.isClaimed v ↔ r.contains v ∨ p.isClaimed v := by
  rcases claimRange_cases hp.sound.toBalanced (Range.Optional.readIn_some hr) labels with
    ⟨e, heq⟩ | ⟨_, c, p', heq, -, hcontains, hchanged⟩
  · rw [heq] at h
    cases h
  · rw [heq]
    refine ⟨hp.changed hchanged, fun v => ?_⟩
    have hv : c.contains v = r.contains v := hcontains hp.sound.lawful v
    rw [← hv]
    exact hchanged.isClaimed_iff hp.sound v

/-! ### Sets of claimed and of free values -/

/-- Pools with the same claimed values have equal sets of claimed values. -/
theorem claimed_equal (hp : p.Balanced cmp) (hq : q.Balanced cmp)
    (h : ∀ v, p.isClaimed v = q.isClaimed v) :
    (p.claimed.view .inside).equal (some (q.claimed.view .inside)) :=
  (View.equal_iff_of_edgedBy (hp.claimed.view .inside) (hq.claimed.view .inside)
    (edgedBy_claimed hp) (edgedBy_claimed hq)).mpr fun v _ => h v

/-- Pools with the same claimed values within the same bounds have equal sets of free values. -/
theorem free_equal (hp : p.Balanced cmp) (hq : q.Balanced cmp) (hbounds : p.bounds = q.bounds)
    (hne : Cut.lt cmp p.bounds.lower p.bounds.upper) (h : ∀ v, p.isClaimed v = q.isClaimed v) :
    (⟨p.free, .inside⟩ : View α).equal (some ⟨q.free, .inside⟩) := by
  obtain ⟨c, hc, hunclaimed⟩ := exists_unclaimed hp hne
  obtain ⟨c', hc', hunclaimed'⟩ := exists_unclaimed hq (hbounds ▸ hne)
  have hfree : p.free = c.set := by rw [free, hc]
  have hfree' : q.free = c'.set := by rw [free, hc']
  -- The free values are those of the bounds that are not claimed, so equal sets of claimed values
  -- leave equal rests.
  have hclaimed := (View.equal_iff (hp.claimed.view .inside) (hq.claimed.view .inside)).mp
    (claimed_equal hp hq h)
  have hregion : IntervalSet.region cmp p.claimed.set.members =
      IntervalSet.region cmp q.claimed.set.members := hclaimed
  rw [hfree, hfree']
  refine (View.equal_iff (hunclaimed.sound.view .inside) (hunclaimed'.sound.view .inside)).mpr ?_
  show IntervalSet.region cmp c.set.members = IntervalSet.region cmp c'.set.members
  rw [hunclaimed.region, hunclaimed'.region, hregion, hbounds]

end Pool

end Allotment
