import Allotment.Pool.Notation
import Allotment.Proofs.Expression
import Allotment.Proofs.Number
import Allotment.Proofs.Pool.Patience
import Allotment.Proofs.Pool.Sameness
import Allotment.Proofs.Pool.Vlan
import Allotment.Proofs.Range.Notation

namespace Allotment

/-!
# Claims in interval notation

A claim on VLAN ids that is written as a text is entered by its first id and the number of its ids,
and one on network ids is entered id by id.  Either comes to what claiming the range of the text
comes to.  The number of ids is computed in 64-bit words and wraps around for half of all numbers
and more, but such ranges do not fit into a pool anyway.

* `endsOf_eq_ok_iff` — the ends of a text are those of its half-open form;
* `VlanPool.Fenced.claimText_alike` — VLAN ids, by first id and number;
* `VniPool.claimIds_answer_iff`, `VniPool.claimIds_grows` — network ids, one by one;
* `claimText_matches_claimRange` — both, after every run.
-/

/-! ### The ends of a range -/

open VlanPool (block)

/-- The half-open form of a range is a block when its ends are the ends of the block. -/
theorem canonical_eq_block_iff {r : Range Int64} (hr : r.cmp = Order.int64) (a b : Int64) :
    r.canonical .int64 = block a b ↔
      r.lower.canonical .int64 = .below a ∧ r.upper.canonical .int64 = .below b := by
  constructor
  · intro heq
    have hinterval : r.toInterval.canonical .int64 = Interval.closedOpen a b :=
      congrArg Range.toInterval heq
    exact ⟨congrArg Interval.lower hinterval, congrArg Interval.upper hinterval⟩
  · rintro ⟨hlower, hupper⟩
    unfold Range.canonical Interval.canonical
    rw [hlower, hupper, hr]
    rfl

/-- The ends of a text are those of its half-open form. -/
theorem endsOf_eq_ok_iff {t : Text} {r : Range Int64} (h : Range.parseInt t = .ok r) (a b : Int64) :
    endsOf t = .ok (a, b) ↔ r.canonical .int64 = block a b := by
  rw [canonical_eq_block_iff (Operation.cmp_of_parseInt h)]
  have hlower := Cut.halfOpen_canonical (d := .int64) r.lower
  have hupper := Cut.halfOpen_canonical (d := .int64) r.upper
  simp only [endsOf, numbersOf, h, Except.mapError, bind, Except.bind, Range.canonical,
    Interval.canonical]
  -- The half-open form has an end exactly where it is below a number, since it is never above one.
  generalize r.lower.canonical .int64 = lower at hlower ⊢
  generalize r.upper.canonical .int64 = upper at hupper ⊢
  cases lower with
  | above v => exact hlower.elim
  | bottom | top => simp [Cut.endpoint?, throw, throwThe, MonadExceptOf.throw]
  | below v =>
    cases upper with
    | above w => exact hupper.elim
    | bottom | top => simp [Cut.endpoint?, throw, throwThe, MonadExceptOf.throw]
    | below w => simp [Cut.endpoint?, pure, Except.pure]

/-- A range that can be claimed lies between two ends within the bounds. -/
theorem exists_ends_of_claimRange {ρ : Type} {check : Range Int64 → Option ρ} {o l : Int64}
    {p : Pool Int64 ρ} (hp : Pool.Within Order.int64 (block o l) .int64 check p) {r : Range Int64}
    (hr : r.cmp = Order.int64) {labels : Labels}
    (h : (p.claimRange (some r) labels).answer = .ok ()) :
    ∃ a b, r.canonical .int64 = block a b ∧ o.toInt ≤ a.toInt ∧ a.toInt < b.toInt ∧
      b.toInt ≤ l.toInt := by
  have hadm := Pool.admissible_of_answer hp.sound hr h
  have hfit := hadm.fitting hp.sound hr
  rw [hp.domain] at hfit
  obtain ⟨a, ha⟩ := hfit.start hp.sound
  obtain ⟨hlow, hhigh⟩ := (Interval.encloses_iff _ _).mp hfit.enclosed
  have hne := hfit.nonempty
  rw [hp.bounds] at hlow hhigh
  rw [ha] at hlow hne
  -- The half-open form starts at an id; where it ends is between its start and the end of the
  -- bounds.
  cases hb : (r.canonical .int64).upper with
  | bottom =>
    rw [hb] at hne
    cases hne
  | above v =>
    have hopen := hfit.halfOpen.2
    rw [hb] at hopen
    exact hopen.elim
  | top =>
    rw [hb] at hhigh
    cases hhigh
  | below b =>
    rw [hb] at hhigh hne
    exact ⟨a, b, (canonical_eq_block_iff hr a b).mpr ⟨ha, hb⟩,
      (VlanPool.below_le_below o a).mp hlow, (Cut.below_lt_below a b).mp hne,
      (VlanPool.below_le_below b l).mp hhigh⟩

/-- A range whose text has no two ends cannot be claimed. -/
theorem answer_ne_ok_of_endsOf_error {ρ : Type} {check : Range Int64 → Option ρ} {o l : Int64}
    {p : Pool Int64 ρ} (hp : Pool.Within Order.int64 (block o l) .int64 check p) {t : Text}
    {r : Range Int64} (h : Range.parseInt t = .ok r) {e : NotationError}
    (hends : endsOf t = .error e) (labels : Labels) :
    (p.claimRange (some r) labels).answer ≠ .ok () := by
  intro hok
  obtain ⟨a, b, hblock, -⟩ := exists_ends_of_claimRange hp (Operation.cmp_of_parseInt h) hok
  rw [(endsOf_eq_ok_iff h a b).mpr hblock] at hends
  cases hends

/-! ### VLAN ids -/

namespace VlanPool

theorem eq_of_block_eq {a b a' b' : Int64} (h : block a b = block a' b') : a = a' ∧ b = b' := by
  have hinterval : Interval.closedOpen a b = Interval.closedOpen a' b' :=
    congrArg Range.toInterval h
  simpa [Interval.closedOpen] using hinterval

/-- A text with two ends is claimed as a block with a size. -/
theorem claimText_of_ends {p : VlanPool} {t : Text} {a b : Int64} (h : endsOf t = .ok (a, b))
    (labels : Labels) : claimText p t labels = (p.claimSized a (b - a) labels).mapError .vlan := by
  unfold claimText
  rw [h]
  rfl

/-- However it wraps around, the number of ids leads from the first id to the end. -/
theorem claimSized_of_ends {p : VlanPool} {a b : Int64} (h : ¬ (b - a).toInt < 1)
    (labels : Labels) :
    p.claimSized a (b - a) labels = (p.claimRange (some (block a b)) labels).mapError .claim := by
  have hend : a + (b - a) = b := by
    rw [Int64.add_comm]
    exact Int64.sub_add_cancel b a
  unfold claimSized sized
  rw [if_neg h, hend]
  rfl

/-- **VLAN ids by first id and number.**  Claiming a text comes to claiming its range: where the
    number of ids wraps around, or the range has no end, the range does not fit into the pool. -/
theorem Fenced.claimText_alike {p : VlanPool} (hp : Fenced p) {t : Text} {r : Range Int64}
    (h : Range.parseInt t = .ok r) (labels : Labels) :
    (claimText p t labels).Alike (p.claimRange (some r) labels) := by
  have hr := Operation.cmp_of_parseInt h
  have hrefused : ∀ e : NotationError, (p.claimRange (some r) labels).answer ≠ .ok () →
      (Attempt.refuse p e : Attempt VlanPool NotationError Unit).Alike
      (p.claimRange (some r) labels) := by
    intro e hanswer
    obtain ⟨e', heq⟩ := Pool.claimRange_of_not_ok hp.within.sound.toBalanced hr hanswer
    rw [heq]
    exact Attempt.alike_refuse p e e'
  cases hends : endsOf t with
  | error e =>
    have htext : claimText p t labels = .refuse p e := by
      unfold claimText
      rw [hends]
      rfl
    rw [htext]
    exact hrefused e (answer_ne_ok_of_endsOf_error hp.within h hends labels)
  | ok ends =>
    obtain ⟨a, b⟩ := ends
    have hblock := (endsOf_eq_ok_iff h a b).mp hends
    rw [claimText_of_ends hends]
    by_cases hsize : (b - a).toInt < 1
    · have hsized : (p.claimSized a (b - a) labels).mapError NotationError.vlan =
          .refuse p (.vlan (.badSize (b - a))) := by
        unfold claimSized sized
        rw [if_pos hsize]
        rfl
      rw [hsized]
      refine hrefused _ fun hok => ?_
      -- Between ends within the pool there is a number of ids.
      obtain ⟨a', b', hblock', hstart, hlt, -⟩ := exists_ends_of_claimRange hp.within hr hok
      obtain ⟨rfl, rfl⟩ := eq_of_block_eq (hblock.symm.trans hblock')
      have hnonneg : 0 ≤ a.toInt := hstart
      have hsub := Word.toInt_sub_of_le hnonneg hlt.le
      omega
    · -- The half-open form is asked for in place of the range.
      have halike := Pool.claimRange_alike_canonical hp.within.sound.toBalanced hr
        (Range.isValid_of_parseInt h) labels
      rw [hp.within.domain, hblock] at halike
      rw [claimSized_of_ends hsize]
      exact ((Attempt.alike_mapError _ _).trans (Attempt.alike_mapError _ _)).trans halike.symm

end VlanPool

/-! ### Network ids -/

namespace VniPool

/-- A pool of network ids from `o` up to `l`. -/
structure Spans (o l : Int64) (p : VniPool) : Prop where
  within : Pool.Within Order.int64 (block o l) .int64 (fun _ => none) p
  nonneg : 0 ≤ o.toInt
  lt : o.toInt < l.toInt

variable {o l : Int64} {p : VniPool}

/-- A new pool of network ids spans the ids that it was made for. -/
theorem spans_create (h : create o l = .ok p) : Spans o l p := by
  unfold create at h
  split at h
  · cases h
  · next houtside =>
    have hnonneg : 0 ≤ o.toInt := by
      rw [Bool.or_eq_true, decide_eq_true_iff, not_or] at houtside
      omega
    split at h
    · next q errors hcreate =>
      obtain rfl := Except.ok.inj h
      have hwithin := Pool.within_create Domain.lawful_int64 rfl (by simp) hcreate
      exact ⟨hwithin, hnonneg, (Cut.below_lt_below o l).mp (Pool.create_eq_ok rfl hcreate).2.1⟩
    · cases h

namespace Spans

/-- No pool of network ids is empty. -/
theorem lt_bounds (hp : Spans o l p) : Cut.lt Order.int64 p.bounds.lower p.bounds.upper := by
  rw [hp.within.bounds]
  exact (Cut.below_lt_below o l).mpr hp.lt

/-- The free ids are those between the ends that are not claimed. -/
theorem isFree_iff (hp : Spans o l p) (v : Int64) :
    p.isFree v ↔ (o.toInt ≤ v.toInt ∧ v.toInt < l.toInt) ∧ ¬ p.isClaimed v := by
  rw [Pool.isFree_iff, hp.within.bounds, VlanPool.contains_block]

/-- A range with a number is claimed exactly when all its numbers are free. -/
theorem claimRange_answer_iff (hp : Spans o l p) {r : Range Int64} (hr : r.cmp = Order.int64)
    (hvalid : r.isValid) (hsome : ∃ v, r.contains v) (labels : Labels) :
    (p.claimRange (some r) labels).answer = .ok () ↔ ∀ v, r.contains v → p.isFree v := by
  rw [Pool.claimRange_answer_iff hp.within.sound hr]
  constructor
  · rintro ⟨hadm, hclaimed⟩ v hv
    rw [Pool.isFree_iff]
    exact ⟨hadm.inside v hv, by simp [hclaimed v hv]⟩
  · intro hfree
    have hparts : ∀ v, r.contains v → p.bounds.contains v ∧ ¬ p.isClaimed v := fun v hv =>
      (Pool.isFree_iff p v).mp (hfree v hv)
    have hbounded : r.lower.isBounded := by
      cases hlower : r.lower with
      | below v => rfl
      | above v => rfl
      | bottom =>
        -- Such a range contains the least word, which is no network id.
        obtain ⟨v, hv⟩ := hsome
        have hle := v.le_toInt
        rw [Range.contains_iff_position hr] at hv
        have hmin : r.contains Int64.minValue := by
          rw [Range.contains_iff_position hr, hlower]
          exact ⟨le_rfl, hle.trans_lt hv.2⟩
        have hstart := ((hp.isFree_iff _).mp (hfree _ hmin)).1.1
        have hnonneg := hp.nonneg
        exact absurd (hnonneg.trans hstart) (by decide)
      | top => simp [Range.isValid, Interval.isValid, hlower, Cut.isTop] at hvalid
    refine ⟨⟨hvalid, hbounded, hsome, fun v hv => (hparts v hv).1, ?_⟩,
      fun v hv => by simpa using (hparts v hv).2⟩
    rw [hp.within.check]

theorem cmp_singleton (hp : Spans o l p) (v : Int64) : (p.singleton v).cmp = Order.int64 :=
  congrArg Range.cmp hp.within.bounds

/-- A single id is the only id of its range. -/
theorem contains_singleton (hp : Spans o l p) (v x : Int64) :
    (p.singleton v).contains x ↔ x = v := by
  rw [Range.contains_iff_position (hp.cmp_singleton v), ← Int64.toInt_inj]
  show v.toInt ≤ x.toInt ∧ x.toInt < v.toInt + 1 ↔ _
  omega

/-- An id is claimed exactly when it is free. -/
theorem claim_answer_iff (hp : Spans o l p) (v : Int64) (labels : Labels) :
    (p.claim v labels).answer = .ok () ↔ p.isFree v := by
  have hcmp := hp.cmp_singleton v
  have hvalid : (p.singleton v).isValid := by
    unfold Range.isValid
    rw [hcmp]
    exact Int.isLE_compare.mpr (Int.le_refl v.toInt)
  have hself := (hp.contains_singleton v v).mpr rfl
  refine (hp.claimRange_answer_iff hcmp hvalid ⟨v, hself⟩ labels).trans
    ⟨fun h => h v hself, fun h x hx => ?_⟩
  rwa [(hp.contains_singleton v x).mp hx]

/-- A range that is claimed adds its ids to the claimed ones. -/
theorem claimRange_grows (hp : Spans o l p) {r : Range Int64} (hr : r.cmp = Order.int64)
    {labels : Labels} (h : (p.claimRange (some r) labels).answer = .ok ()) :
    Spans o l (p.claimRange (some r) labels).state ∧
      ∀ v, (p.claimRange (some r) labels).state.isClaimed v ↔ r.contains v ∨ p.isClaimed v := by
  obtain ⟨hwithin, hclaimed⟩ := Pool.claimRange_grows hp.within hr h
  exact ⟨⟨hwithin, hp.nonneg, hp.lt⟩, hclaimed⟩

/-- One step of the loop: an id that is free is claimed, and nothing else changes. -/
theorem claim_grows (hp : Spans o l p) {v : Int64} {labels : Labels}
    (h : (p.claim v labels).answer = .ok ()) :
    Spans o l (p.claim v labels).state ∧
      ∀ x, (p.claim v labels).state.isClaimed x ↔ x = v ∨ p.isClaimed x := by
  obtain ⟨hspans, hclaimed⟩ := hp.claimRange_grows (hp.cmp_singleton v) h
  simp only [hp.contains_singleton] at hclaimed
  exact ⟨hspans, hclaimed⟩

end Spans

/-- Some ids are claimed when the first is claimed and then the others. -/
theorem claimIds_succ_answer_iff {n : Nat} {v : Int64} {labels : Labels} :
    (claimIds labels (n + 1) v p).answer = .ok () ↔
      (p.claim v labels).answer = .ok () ∧
      (claimIds labels n (v + 1) (p.claim v labels).state).answer = .ok () := by
  rw [claimIds, Attempt.andThen_answer_eq_ok]
  simp only [Attempt.mapError_answer_eq_ok]
  exact ⟨fun ⟨_, h⟩ => h, fun h => ⟨(), h⟩⟩

/-- The others are claimed after the first. -/
theorem claimIds_succ_state {n : Nat} {v : Int64} {labels : Labels}
    (h : (p.claim v labels).answer = .ok ()) :
    (claimIds labels (n + 1) v p).state =
      (claimIds labels n (v + 1) (p.claim v labels).state).state := by
  have hanswer := Attempt.mapError_answer_eq_ok (f := NotationError.claim) |>.mpr h
  rw [claimIds, Attempt.andThen, hanswer]
  rfl

/-- **Network ids one by one.**  All of them are claimed exactly when all of them are free at the
    start: claiming an id leaves the others as they are.  By induction on the number of ids. -/
theorem claimIds_answer_iff {n : Nat} {v : Int64} (labels : Labels) (hp : Spans o l p)
    (hn : v.toInt + n ≤ Int64.maxValue.toInt) :
    (claimIds labels n v p).answer = .ok () ↔
      ∀ x : Int64, v.toInt ≤ x.toInt → x.toInt < v.toInt + n → p.isFree x := by
  induction n generalizing v p with
  | zero =>
    refine iff_of_true rfl fun x hle hlt => ?_
    simp only [Nat.cast_zero, Int.add_zero] at hlt
    omega
  | succ n ih =>
    push_cast at hn ⊢
    have hnext := Word.toInt_add_one (v := v) (by omega)
    have hrest : (p.claim v labels).answer = .ok () →
        ((claimIds labels n (v + 1) (p.claim v labels).state).answer = .ok () ↔
          ∀ x : Int64, (v + 1).toInt ≤ x.toInt → x.toInt < (v + 1).toInt + n → p.isFree x) := by
      intro hok
      obtain ⟨hspans, hclaimed⟩ := hp.claim_grows hok
      -- The ids that are left are as free as they were before the first one was claimed.
      rw [ih hspans (by omega)]
      refine forall₃_congr fun x hle _ => ?_
      have hne : x ≠ v := by
        rintro rfl
        omega
      rw [hspans.isFree_iff, hp.isFree_iff, hclaimed, or_iff_right hne]
    rw [claimIds_succ_answer_iff, and_congr_right hrest, hp.claim_answer_iff, hnext]
    constructor
    · rintro ⟨hfirst, hothers⟩ x hle hlt
      by_cases heq : x = v
      · rwa [heq]
      · rw [← Int64.toInt_inj] at heq
        exact hothers x (by omega) (by omega)
    · intro hfree
      exact ⟨hfree v le_rfl (by omega), fun x hle hlt => hfree x (by omega) (by omega)⟩

/-- What the loop adds, when it comes to its end. -/
theorem claimIds_grows {n : Nat} {v : Int64} {labels : Labels} (hp : Spans o l p)
    (hn : v.toInt + n ≤ Int64.maxValue.toInt) (h : (claimIds labels n v p).answer = .ok ()) :
    Spans o l (claimIds labels n v p).state ∧ ∀ x, (claimIds labels n v p).state.isClaimed x ↔
      (v.toInt ≤ x.toInt ∧ x.toInt < v.toInt + n) ∨ p.isClaimed x := by
  induction n generalizing v p with
  | zero =>
    refine ⟨hp, fun x => (or_iff_right ?_).symm⟩
    simp only [Nat.cast_zero, Int.add_zero]
    omega
  | succ n ih =>
    push_cast at hn ⊢
    have hnext := Word.toInt_add_one (v := v) (by omega)
    obtain ⟨hok, hrest⟩ := claimIds_succ_answer_iff.mp h
    -- The first id is claimed, then by induction those after it.
    obtain ⟨hspans, hclaimed⟩ := hp.claim_grows hok
    obtain ⟨hspans', hclaimed'⟩ := ih hspans (by omega) hrest
    rw [claimIds_succ_state hok]
    refine ⟨hspans', fun x => ?_⟩
    rw [hclaimed', hclaimed, hnext, ← or_assoc, ← Int64.toInt_inj]
    exact or_congr_left (by omega)

/-- The numbers of a range with two ends. -/
theorem contains_iff_of_canonical_eq {r : Range Int64} (hr : r.cmp = Order.int64) {a b : Int64}
    (h : r.canonical .int64 = block a b) (v : Int64) :
    r.contains v ↔ a.toInt ≤ v.toInt ∧ v.toInt < b.toInt := by
  obtain ⟨hlower, hupper⟩ := (canonical_eq_block_iff hr a b).mp h
  rw [Range.contains_iff_position hr, ← Cut.position_canonical r.lower,
    ← Cut.position_canonical r.upper, hlower, hupper, Cut.position_below, Cut.position_below]

/-- Claiming the network ids of a text one by one comes to claiming its range at once: it succeeds
    when the other does, and then the sets of the claimed and of the free ids are equal. -/
structure MatchesRange (p : VniPool) (t : Text) (r : Range Int64) (labels : Labels) : Prop where
  answer_iff : (claimText p t labels).answer = .ok () ↔
    (p.claimRange (some r) labels).answer = .ok ()
  claimed_equal : (claimText p t labels).answer = .ok () →
    ((claimText p t labels).state.claimed.view .inside).equal
      (some ((p.claimRange (some r) labels).state.claimed.view .inside))
  free_equal : (claimText p t labels).answer = .ok () →
    (⟨(claimText p t labels).state.free, .inside⟩ : View Int64).equal
      (some ⟨(p.claimRange (some r) labels).state.free, .inside⟩)

/-- A text and its range are claimed or refused together, in every pool of network ids. -/
theorem Spans.matchesRange (hp : Spans o l p) {t : Text} {r : Range Int64}
    (h : Range.parseInt t = .ok r) (hsome : ∃ v, r.contains v) (labels : Labels) :
    MatchesRange p t r labels := by
  have hr := Operation.cmp_of_parseInt h
  cases hends : endsOf t with
  | error e =>
    have htext : claimText p t labels = .refuse p e := by
      unfold claimText
      rw [hends]
      rfl
    have hfails : (claimText p t labels).answer ≠ .ok () := by simp [htext]
    have hrefused := answer_ne_ok_of_endsOf_error hp.within h hends labels
    exact ⟨iff_of_false hfails hrefused, fun hok => absurd hok hfails, fun hok => absurd hok hfails⟩
  | ok ends =>
    obtain ⟨a, b⟩ := ends
    have hcontains := contains_iff_of_canonical_eq hr ((endsOf_eq_ok_iff h a b).mp hends)
    have htext : claimText p t labels = claimIds labels (b.toInt - a.toInt).toNat a p := by
      unfold claimText
      rw [hends]
      rfl
    have hend : a.toInt + ((b.toInt - a.toInt).toNat : Int) = b.toInt := by
      obtain ⟨v, hv⟩ := hsome
      rw [hcontains] at hv
      omega
    have hn : a.toInt + ((b.toInt - a.toInt).toNat : Int) ≤ Int64.maxValue.toInt := by
      rw [hend]
      exact Domain.toInt_le_maxValue b
    have hanswer : (claimText p t labels).answer = .ok () ↔
        (p.claimRange (some r) labels).answer = .ok () := by
      rw [htext, claimIds_answer_iff labels hp hn, hend,
        hp.claimRange_answer_iff hr (Range.isValid_of_parseInt h) hsome]
      simp only [hcontains, and_imp]
    -- Either way the ids of the range are claimed, beside those that were.
    have hstates : (claimText p t labels).answer = .ok () →
        Spans o l (claimText p t labels).state ∧ Spans o l (p.claimRange (some r) labels).state ∧
          ∀ x, (claimText p t labels).state.isClaimed x =
          (p.claimRange (some r) labels).state.isClaimed x := by
      intro hok
      obtain ⟨hspans', hclaimed'⟩ := hp.claimRange_grows hr (hanswer.mp hok)
      rw [htext] at hok ⊢
      obtain ⟨hspans, hclaimed⟩ := claimIds_grows hp hn hok
      refine ⟨hspans, hspans', fun x => ?_⟩
      rw [Bool.eq_iff_iff, hclaimed, hclaimed', hcontains, hend]
    refine ⟨hanswer, fun hok => ?_, fun hok => ?_⟩
    · obtain ⟨hspans, hspans', hsame⟩ := hstates hok
      exact Pool.claimed_equal hspans.within.sound.toBalanced hspans'.within.sound.toBalanced hsame
    · obtain ⟨hspans, hspans', hsame⟩ := hstates hok
      exact Pool.free_equal hspans.within.sound.toBalanced hspans'.within.sound.toBalanced
        (hspans.within.bounds.trans hspans'.within.bounds.symm) hspans.lt_bounds hsame

end VniPool

/-! ### After every run -/

/-- **Claims in interval notation are claims on ranges.**  After every run of a pool of VLAN ids,
    claiming a text by its first id and the number of its ids is met when claiming its range is, and
    leaves the same pool.  After every run of a pool of network ids, claiming the ids of a text one
    by one is met when claiming its range is, provided that it has an id; then the same ids are
    claimed and the same ids are free. -/
theorem claimText_matches_claimRange :
    (∀ qs, ∃ p, VlanPool.run VlanPool.initial qs = some p ∧
      ∀ t r labels, Range.parseInt t = .ok r →
        (VlanPool.claimText p t labels).Alike (p.claimRange (some r) labels)) ∧
    ∀ o l p₀, VniPool.create o l = .ok p₀ → ∀ qs, (∀ q ∈ qs, Pool.Request.ReadIn Order.int64 q) →
      ∃ p, p₀.run qs = some p ∧
        ∀ t r labels, Range.parseInt t = .ok r → (∃ v, r.contains v) →
          VniPool.MatchesRange p t r labels := by
  constructor
  · intro qs
    obtain ⟨p, hrun, hp⟩ := VlanPool.exists_fenced qs
    exact ⟨p, hrun, fun t r labels h => hp.claimText_alike h labels⟩
  · intro o l p₀ hcreate qs hqs
    have hspans := VniPool.spans_create hcreate
    obtain ⟨p, hrun⟩ := Pool.exists_run hspans.within.sound.toBalanced
      (hspans.within.domain ▸ Domain.patient_int64) hqs
    have hp : VniPool.Spans o l p :=
      ⟨Pool.within_run hspans.within hqs hrun, hspans.nonneg, hspans.lt⟩
    exact ⟨p, hrun, fun t r labels h hsome => hp.matchesRange h hsome labels⟩

def sampleVniPool : VniPool :=
  ⟨.ofString "vxlan", block 100 200, .int64, fun _ => none, .ofSet (.empty Order.int64), .empty, []⟩

def sampleVnis : List (Pool.Request Int64) :=
  [.claim 150 (.ofStrings []), .claimFirst (.ofStrings [])]

/-- A claim on more VLAN ids than a word can count, and one on network ids that is met. -/
theorem samples_match_claimRange :
    (∃ p, VlanPool.run VlanPool.initial VlanPool.sampleVlans = some p ∧
      Range.parseInt (.ofString "[-5000000000000000000‥5000000000000000000)") =
        .ok (block (-5000000000000000000) 5000000000000000000) ∧
      (VlanPool.claimText p (.ofString "[-5000000000000000000‥5000000000000000000)")
          (.ofStrings [])).Alike
        (p.claimRange (some (block (-5000000000000000000) 5000000000000000000)) (.ofStrings []))) ∧
    ∃ p, VniPool.create 100 200 = .ok sampleVniPool ∧ (∀ q ∈ sampleVnis, q.ReadIn Order.int64) ∧
      sampleVniPool.run sampleVnis = some p ∧
      Range.parseInt (.ofString "(120‥124]") = .ok ⟨⟨.above 120, .above 124⟩, Order.int64⟩ ∧
      (VniPool.claimText p (.ofString "(120‥124]") (.ofStrings [])).answer.isOk ∧
      VniPool.MatchesRange p (.ofString "(120‥124]") ⟨⟨.above 120, .above 124⟩, Order.int64⟩
        (.ofStrings []) := by
  obtain ⟨hvlan, hvni⟩ := claimText_matches_claimRange
  constructor
  · -- The size of this text does not fit into a number.
    obtain ⟨p, hrun, hp⟩ := hvlan VlanPool.sampleVlans
    have hread : Range.parseInt (.ofString "[-5000000000000000000‥5000000000000000000)") =
        .ok (block (-5000000000000000000) 5000000000000000000) := rfl
    exact ⟨p, hrun, hread, hp _ _ _ hread⟩
  · have hreadIn : ∀ q ∈ sampleVnis, q.ReadIn Order.int64 := by simp [sampleVnis,
      Pool.Request.ReadIn]
    have hread : Range.parseInt (.ofString "(120‥124]") =
        .ok ⟨⟨.above 120, .above 124⟩, Order.int64⟩ := rfl
    have hmet : (sampleVniPool.run sampleVnis).map (fun p =>
        (VniPool.claimText p (.ofString "(120‥124]") (.ofStrings [])).answer.isOk) =
          some true := by decide +kernel
    obtain ⟨p, hrun, hp⟩ := hvni 100 200 sampleVniPool rfl sampleVnis hreadIn
    rw [hrun, Option.map_some, Option.some.injEq] at hmet
    exact ⟨p, rfl, hreadIn, hrun, hread, hmet, hp _ _ _ hread ⟨122, by decide⟩⟩

end Allotment
