import Allotment.Proofs.Number
import Allotment.Proofs.Pool.Free
import Allotment.Proofs.Pool.Patience
import Allotment.Proofs.Pool.Requests

namespace Allotment.VlanPool

/-!
# Reserved VLAN ids

The reserved ids are claimed before the check is in force, and after that the check keeps every
request away from them.  What is claimed or found free lies between the reserved ids:

* `reservedClaim` — the claims that the pool of VLAN ids starts with;
* `Fenced`, `Fenced.changed` — these claims are there, and all others are between them; every change
  keeps this;
* `Fenced.exists_block`, `Fenced.between_of_mem` — the free intervals are blocks between them;
* `Guarded`, `run_guarded` — so no reserved id is ever claimed, released, labelled or handed out.
-/

/-! ### Blocks of ids -/

theorem below_le_below (a b : Int64) :
    Cut.le Order.int64 (.below a) (.below b) ↔ a.toInt ≤ b.toInt := by
  rw [Cut.below_le_below]
  exact Int.isLE_compare

/-- Blocks of ids are read in the natural order. -/
theorem cmp_block (a b : Int64) : (block a b).cmp = Order.int64 :=
  rfl

/-- A block spans the cuts below its ids. -/
theorem spans_block (a b v : Int64) : (block a b).toInterval.Spans Order.int64 (.below v) ↔
    a.toInt ≤ v.toInt ∧ v.toInt < b.toInt := by
  show Cut.le Order.int64 (.below a) (.below v) ∧ Cut.lt Order.int64 (.below v) (.below b) ↔ _
  rw [Cut.lt_eq_not_le, Bool.not_eq_true', ← Bool.not_eq_true, below_le_below, below_le_below]
  omega

/-- A block has the ids from its start up to its end. -/
theorem contains_block (a b v : Int64) :
    (block a b).contains v ↔ a.toInt ≤ v.toInt ∧ v.toInt < b.toInt := by
  show (block a b).toInterval.contains Order.int64 v ↔ _
  rw [Interval.contains_iff_spans, spans_block]

theorem spans_ids (v : Int64) : (block 0 4096).toInterval.Spans Order.int64 (.below v) ↔
    0 ≤ v.toInt ∧ v.toInt < 4096 :=
  spans_block 0 4096 v

/-- Between the reserved ids are the numbers from 2 to 4094. -/
theorem spans_between (v : Int64) : (block 2 4095).toInterval.Spans Order.int64 (.below v) ↔
    2 ≤ v.toInt ∧ v.toInt < 4095 :=
  spans_block 2 4095 v

/-- The reserved ids are the first two and the last one. -/
theorem toInt_id (v : ReservedVlan) : v.id.toInt = 0 ∨ v.id.toInt = 1 ∨ v.id.toInt = 4095 := by
  cases v <;> decide

/-- The id after a reserved one is not wrapped around. -/
theorem toInt_id_add_one (v : ReservedVlan) : (v.id + 1).toInt = v.id.toInt + 1 := by
  cases v <;> decide

/-- No id is reserved twice. -/
theorem eq_of_id_eq {v w : ReservedVlan} (h : v.id = w.id) : v = w := by
  revert h
  cases v <;> cases w <;> decide

/-- The ids between the reserved ones. -/
theorem between_iff (w : Int64) : (block 2 4095).toInterval.Spans Order.int64 (.below w) ↔
    (block 0 4096).toInterval.Spans Order.int64 (.below w) ∧ ∀ v : ReservedVlan, w ≠ v.id := by
  rw [spans_ids, spans_between]
  constructor
  · intro h
    refine ⟨by omega, ?_⟩
    rintro v rfl
    have hv := toInt_id v
    omega
  · rintro ⟨hbounds, hne⟩
    have hzero : w.toInt ≠ 0 := fun h => hne .untagged (Int64.toInt_inj.mp h)
    have hone : w.toInt ≠ 1 := fun h => hne .default (Int64.toInt_inj.mp h)
    have hlast : w.toInt ≠ 4095 := fun h => hne .last (Int64.toInt_inj.mp h)
    omega

/-- An interval of ids without a reserved one lies between these. -/
theorem encloses_of_ne {s : Interval Int64} (hstart : ∃ v, s.lower = .below v)
    (hs : Cut.lt Order.int64 s.lower s.upper)
    (h : ∀ w, s.Spans Order.int64 (.below w) →
      (block 0 4096).toInterval.Spans Order.int64 (.below w) ∧ ∀ v : ReservedVlan, w ≠ v.id) :
    (block 2 4095).toInterval.encloses Order.int64 s :=
  Interval.encloses_of_spans trivial hstart hs fun w hw => (between_iff w).mpr (h w hw)

/-- A range between the reserved ids has none of them. -/
theorem not_spans_of_encloses {s : Interval Int64}
    (h : (block 2 4095).toInterval.encloses Order.int64 s) (v : ReservedVlan) :
    ¬ s.Spans Order.int64 (.below v.id) := by
  intro hspan
  exact ((between_iff _).mp (Interval.spans_of_encloses h hspan)).2 v rfl

/-! ### The claims on the reserved ids -/

/-- The claim on a reserved id. -/
def reservedClaim (v : ReservedVlan) : Claim Int64 :=
  ⟨block v.id (v.id + 1), reservedLabels⟩

/-- The claims on the reserved ids. -/
def reservedClaims : List (Claim Int64) :=
  [⟨block 0 1, reservedLabels⟩, ⟨block 1 2, reservedLabels⟩, ⟨block 4095 4096, reservedLabels⟩]

/-- The reserved claims are those on the reserved ids. -/
theorem mem_reservedClaims {e : Claim Int64} : e ∈ reservedClaims ↔ ∃ v, e = reservedClaim v := by
  have hall : reservedClaims = ReservedVlan.all.map reservedClaim := rfl
  rw [hall, List.mem_map]
  constructor
  · rintro ⟨v, -, rfl⟩
    exact ⟨v, rfl⟩
  · rintro ⟨v, rfl⟩
    exact ⟨v, by cases v <;> decide, rfl⟩

/-- A reserved claim has a single id. -/
theorem spans_reservedClaim (v : ReservedVlan) (w : Int64) :
    (reservedClaim v).range.toInterval.Spans Order.int64 (.below w) ↔ w = v.id := by
  rw [← Int64.toInt_inj]
  show (block v.id (v.id + 1)).toInterval.Spans Order.int64 (.below w) ↔ _
  rw [spans_block, toInt_id_add_one]
  omega

/-- A part of the claim on a reserved id that holds something is all of it. -/
theorem eq_of_encloses {r : Range Int64} {v : ReservedVlan} (horder : r.cmp = Order.int64)
    (hopen : r.upper.HalfOpen) (hstart : ∃ a, r.lower = .below a)
    (hr : Cut.lt Order.int64 r.lower r.upper)
    (h : (reservedClaim v).range.toInterval.encloses Order.int64 r.toInterval) :
    r = (reservedClaim v).range := by
  have hencloses : r.toInterval.encloses Order.int64 (reservedClaim v).range.toInterval := by
    refine Interval.encloses_of_spans hopen ⟨v.id, rfl⟩ ?_ fun w hw => ?_
    · exact ((spans_reservedClaim v v.id).mpr rfl).2
    · -- The first id of the part is an id of the claim, which has no other.
      obtain ⟨a, ha⟩ := hstart
      have hspan : r.toInterval.Spans Order.int64 (.below a) :=
        (Interval.contains_iff_spans _ a).mp (Interval.contains_of_lower_eq ha hr)
      have hsame := (spans_reservedClaim v a).mp (Interval.spans_of_encloses h hspan)
      rw [(spans_reservedClaim v w).mp hw, ← hsame]
      exact hspan
  exact congrArg₂ Range.mk (Interval.encloses_antisymm hencloses h) horder

/-- The check passes the ranges without a reserved id. -/
theorem check_eq_none_iff (r : Range Int64) :
    check r = none ↔ ∀ v : ReservedVlan, r.contains v.id = false := by
  unfold check ReservedVlan.all
  rw [List.find?_eq_none]
  constructor
  · intro h v
    have hv := h v (by cases v <;> decide)
    exact Bool.eq_false_iff.mpr hv
  · intro h v _
    rw [h v]
    decide

/-- The claims on the reserved ids are there, and all others lie between them. -/
structure Fenced (p : VlanPool) : Prop where
  within : Pool.Within Order.int64 (block 0 4096) .int64 check p
  reserved : ∀ v, reservedClaim v ∈ p.claims
  others : ∀ e ∈ p.claims,
    (∃ v, e = reservedClaim v) ∨ (block 2 4095).toInterval.encloses Order.int64 e.range.toInterval

namespace Fenced

variable {p p' : VlanPool} {c : Range Int64} {labels : Option Labels}

/-- What passes the check and fits into the pool lies between the reserved ids. -/
theorem encloses_of_passes (hp : Fenced p) (hpasses : p.Passes c)
    (hc : Pool.Fitting Order.int64 p c) :
    (block 2 4095).toInterval.encloses Order.int64 c.toInterval := by
  refine encloses_of_ne (hc.start hp.within.sound) hc.nonempty fun w hw => ⟨?_, ?_⟩
  · rw [← hp.within.bounds]
    exact Interval.spans_of_encloses hc.enclosed hw
  · rintro v rfl
    have hnone : check c = none := hp.within.check ▸ hpasses
    have hcontains := (Range.contains_iff_spans hc.order v.id).mpr hw
    rw [(check_eq_none_iff c).mp hnone v] at hcontains
    cases hcontains

/-- A reserved id is claimed with the labels of the reserved ids, and with no others. -/
theorem held_iff (hp : Fenced p) (v : ReservedVlan) (l : Labels) :
    Ledger.Held Order.int64 p.claims (.below v.id) l ↔ l = reservedLabels := by
  constructor
  · rintro ⟨e, he, hspan, rfl⟩
    rcases hp.others e he with ⟨w, rfl⟩ | hbetween
    · rfl
    · exact absurd hspan (not_spans_of_encloses hbetween v)
  · rintro rfl
    exact ⟨_, hp.reserved v, (spans_reservedClaim v v.id).mpr rfl, rfl⟩

/-- The labels of the reserved ids stay, since a range that passes the check does not span them. -/
theorem held_of_changed (hp : Fenced p) (hpasses : p.Passes c)
    (h : Pool.Changed Order.int64 c labels p p') (v : ReservedVlan) (l : Labels) :
    Ledger.Held Order.int64 p'.claims (.below v.id) l ↔ l = reservedLabels := by
  have hout := not_spans_of_encloses (hp.encloses_of_passes hpasses h.fitting) v
  rw [h.rewritten, hp.held_iff]
  simp [hout]

/-- A claim after the change is the range itself, or part of a claim from before. -/
theorem others_of_changed (hp : Fenced p) (hpasses : p.Passes c)
    (h : Pool.Changed Order.int64 c labels p p') :
    ∀ e ∈ p'.claims,
      (∃ v, e = reservedClaim v) ∨
      (block 2 4095).toInterval.encloses Order.int64 e.range.toInterval := by
  intro e he
  rcases h.traced e he with heq | ⟨x, hx, hencloses⟩
  · exact Or.inr (heq ▸ hp.encloses_of_passes hpasses h.fitting)
  · rcases hp.others x hx with ⟨v, rfl⟩ | hx'
    · -- A claim on a reserved id has no part but itself.
      have hfit := h.balanced.fitting he
      have hrange := eq_of_encloses hfit.order hfit.halfOpen.2
        (hfit.start h.balanced) hfit.nonempty hencloses
      have hlabels : e.labels = reservedLabels :=
        (hp.held_of_changed hpasses h v e.labels).mp ⟨e, he,
          hrange ▸ (spans_reservedClaim v v.id).mpr rfl, rfl⟩
      exact Or.inl ⟨v, congrArg₂ Claim.mk hrange hlabels⟩
    · exact Or.inr (Interval.encloses_trans hx' hencloses)

/-- A change of a range that passes the check keeps the claims on the reserved ids, and puts no
    claim over them. -/
theorem changed (hp : Fenced p) (hpasses : p.Passes c)
    (h : Pool.Changed Order.int64 c labels p p') : Fenced p' := by
  have hothers := hp.others_of_changed hpasses h
  refine ⟨hp.within.changed h, fun v => ?_, hothers⟩
  -- Whatever claims the reserved id does not lie between the reserved ids, so it is the claim on
  -- one of them.
  obtain ⟨e, he, hspan, -⟩ := (hp.held_of_changed hpasses h v reservedLabels).mpr rfl
  rcases hothers e he with ⟨w, rfl⟩ | hbetween
  · rwa [eq_of_id_eq ((spans_reservedClaim w v.id).mp hspan)]
  · exact absurd hspan (not_spans_of_encloses hbetween v)

end Fenced

/-- The first claims become the claims on the reserved ids. -/
theorem claims_initial : initial.claims = reservedClaims := by
  cbv

/-- The first pool is fenced. -/
theorem fenced_initial : Fenced initial where
  within := Pool.within_create Domain.lawful_int64 rfl readIn_first create_initial
  reserved v := by
    rw [claims_initial]
    exact mem_reservedClaims.mpr ⟨v, rfl⟩
  others e he := by
    rw [claims_initial] at he
    exact Or.inl (mem_reservedClaims.mp he)

/-- Requests are answered, and the claims stay fenced. -/
theorem exists_fenced (qs : List Request) : ∃ p, VlanPool.run initial qs = some p ∧ Fenced p := by
  obtain ⟨ps, hps, hplain⟩ := plain_run initial qs
  have hinitial := fenced_initial.within
  obtain ⟨p, hrun⟩ := Pool.exists_run hinitial.sound.toBalanced
    (hinitial.domain ▸ Domain.patient_int64) hps
  refine ⟨p, hplain.trans hrun, ?_⟩
  exact Pool.run_keeps (fun _ hp => hp.within.sound)
    (fun _ _ _ _ hp hpasses h => hp.changed hpasses h) fenced_initial hps hrun

/-! ### What is found free -/

namespace Fenced

variable {p : VlanPool}

/-- The free ids can be told. -/
theorem exists_unclaimed (hp : Fenced p) :
    ∃ c, p.unclaimed = .ok c ∧ p.free = c.set ∧ Pool.Unclaimed Order.int64 p c := by
  have hbounds : Cut.lt Order.int64 p.bounds.lower p.bounds.upper := by
    rw [hp.within.bounds]
    rfl
  obtain ⟨c, hok, hc⟩ := Pool.exists_unclaimed hp.within.sound.toBalanced hbounds
  refine ⟨c, hok, ?_, hc⟩
  unfold Pool.free
  rw [hok]

/-- The free intervals lie between the reserved ids, since these are claimed. -/
theorem encloses_free (hp : Fenced p) {m : Interval Int64} (hm : m ∈ p.free.members) :
    (∃ v, m.lower = .below v) ∧ Cut.lt Order.int64 m.lower m.upper ∧
      (block 2 4095).toInterval.encloses Order.int64 m := by
  obtain ⟨c, -, hfree, hc⟩ := hp.exists_unclaimed
  rw [hfree] at hm
  have hne := hc.sound.normal.nonempty m hm
  refine ⟨hc.start m hm, hne, encloses_of_ne (hc.start m hm) hne fun w hw => ?_⟩
  have hcovers : Cut.Start.below w ∈ IntervalSet.region Order.int64 c.set.members := ⟨m, hm, hw⟩
  rw [hc.region] at hcovers
  obtain ⟨hbounds, hunclaimed⟩ := hcovers
  refine ⟨hp.within.bounds ▸ hbounds, ?_⟩
  rintro v rfl
  exact hunclaimed ((hp.within.sound.covers _).mpr ⟨_, (hp.held_iff v _).mpr rfl⟩)

/-- The free intervals are blocks: they end where the free ids do, hence before a claimed id. -/
theorem exists_block (hp : Fenced p) {m : Interval Int64} (hm : m ∈ p.free.members) :
    ∃ a b, m = (block a b).toInterval := by
  have hbalanced := hp.within.sound.toBalanced
  obtain ⟨⟨a, ha⟩, -, hencloses⟩ := hp.encloses_free hm
  have htop : m.upper ≠ .top := by
    intro htop
    have hend := ((Interval.encloses_iff _ _).mp hencloses).2
    rw [htop] at hend
    cases hend
  obtain ⟨c, -, hfree, hc⟩ := hp.exists_unclaimed
  -- The bounds and the claims change only where an id starts, so the free ids do.
  have hedged := (Pool.edgedBy_of_halfOpen hbalanced.start hbalanced.halfOpen).sdiff
    (Pool.edgedBy_claimed hbalanced)
  rw [← hc.region] at hedged
  obtain ⟨b, -, hb⟩ := (hc.sound.normal.upper_of_edgedBy hedged (hfree ▸ hm)).resolve_left htop
  exact ⟨a, b, congrArg₂ Interval.mk ha (Cut.eq_of_same hb)⟩

/-- A free interval lies between the reserved ids. -/
theorem between_of_mem (hp : Fenced p) {a b : Int64}
    (hm : (block a b).toInterval ∈ p.free.members) :
    2 ≤ a.toInt ∧ a.toInt < b.toInt ∧ b.toInt ≤ 4095 := by
  obtain ⟨-, hne, hencloses⟩ := hp.encloses_free hm
  obtain ⟨hstart, hend⟩ := (Interval.encloses_iff _ _).mp hencloses
  exact ⟨(below_le_below 2 a).mp hstart, (Cut.below_lt_below a b).mp hne,
    (below_le_below b 4095).mp hend⟩

/-- The first free id is not a reserved one. -/
theorem ne_id_of_firstFree (hp : Fenced p) {w : Int64} (h : p.firstFree = .ok w)
    (v : ReservedVlan) : w ≠ v.id := by
  obtain ⟨c, hok, hfree, -⟩ := hp.exists_unclaimed
  unfold Pool.firstFree at h
  simp only [hok, ← hfree] at h
  cases hmembers : p.free.members with
  | nil =>
    rw [hmembers] at h
    cases h
  | cons m ms =>
    -- The first free id is the start of the first free interval.
    have hm : m ∈ p.free.members := hmembers ▸ List.mem_cons_self ..
    obtain ⟨a, b, rfl⟩ := hp.exists_block hm
    have hends := hp.between_of_mem hm
    rw [hmembers] at h
    obtain rfl : a = w := Except.ok.inj h
    have hv := toInt_id v
    rintro rfl
    omega

/-- A free block lies in a free interval: sums of ids between the reserved ones do not exceed a
    word. -/
theorem not_contains_of_freeBlock (hp : Fenced p) {size : Int64} {r : Range Int64}
    (h : p.freeBlock size = .ok r) (v : ReservedVlan) : r.contains v.id = false := by
  obtain ⟨hsize, m, hm, hblock⟩ := exists_blockAt? h
  obtain ⟨a, b, rfl⟩ := hp.exists_block hm
  have hends := hp.between_of_mem hm
  obtain ⟨hroom, rfl⟩ := eq_of_blockAt? hblock
  have ha : (block a b).lower.endpoint? = some a := rfl
  have hb : (block a b).upper.endpoint? = some b := rfl
  simp only [ha, hb, Option.getD_some] at hroom ⊢
  have hdiff : (b - a).toInt = b.toInt - a.toInt := Word.toInt_sub_of_le (by omega) hends.2.1.le
  have hsum : (a + size).toInt = a.toInt + size.toInt := by
    rw [Int64.toInt_add]
    exact Int.bmod_eq_of_le (by omega) (by omega)
  have hv := toInt_id v
  rw [← Bool.not_eq_true, contains_block, hsum]
  omega

end Fenced

/-! ### Answers -/

/-- The ids that an answer hands out. -/
def Answer.hasId : Answer → Int64 → Bool
  | .nothing, _ => false
  | .id w, v => w == v
  | .block r, v => r.contains v

/-- The first id that can be claimed has passed the check. -/
theorem Fenced.ne_id_of_claimFirst {p : VlanPool} (hp : Fenced p) {labels : Labels}
    {a : Attempt VlanPool (ClaimError Int64 ReservedVlan) Int64} (h : p.claimFirst labels = some a)
    {w : Int64} (hw : a.answer = .ok w) (v : ReservedVlan) : w ≠ v.id := by
  rcases Pool.claimFirst_passes hp.within.sound.toBalanced labels h with ⟨e, rfl⟩
    | ⟨b, c, p', rfl, hpasses, habout, -⟩
  · cases hw
  · cases hw
    rintro rfl
    have hnone : check c = none := hp.within.check ▸ hpasses
    have hcontains := (habout hp.within.sound.lawful v.id).symm
    rw [(check_eq_none_iff c).mp hnone v, beq_eq_false_iff_ne] at hcontains
    exact hcontains Std.ReflCmp.compare_self

/-- No request is answered with a reserved id. -/
theorem Fenced.not_hasId_of_perform {p : VlanPool} (hp : Fenced p) {q : Request}
    {a : Attempt VlanPool SizeError Answer} (h : VlanPool.perform p q = some a) {answer : Answer}
    (hanswer : a.answer = .ok answer) (v : ReservedVlan) : answer.hasId v.id = false := by
  cases q with
  | claimFirst labels =>
    obtain ⟨b, hb, rfl⟩ := Option.map_eq_some_iff.mp h
    obtain ⟨w, hw, rfl⟩ := Attempt.map_answer_eq_ok.mp hanswer
    rw [Attempt.mapError_answer_eq_ok] at hw
    exact beq_false_of_ne (hp.ne_id_of_claimFirst hb hw v)
  | claimBlock size labels =>
    cases h
    obtain ⟨r, hr, rfl⟩ := Attempt.map_answer_eq_ok.mp hanswer
    obtain ⟨r', hfree, hr⟩ := Attempt.andThen_answer_eq_ok.mp hr
    obtain ⟨_, -, hr⟩ := Attempt.andThen_answer_eq_ok.mp hr
    cases hr
    exact hp.not_contains_of_freeBlock hfree v
  | claim | claimSized | release | releaseSized | relabel =>
    -- The other requests hand out nothing.
    cases h
    obtain ⟨_, -, rfl⟩ := Attempt.map_answer_eq_ok.mp hanswer
    rfl

/-! ### The guard -/

/-- The reserved ids are left alone: their claims are there, each once, with the labels of the
    reserved ids; all other claims lie between them; and no free id, no free block and no answer to
    a request has one of them. -/
structure Guarded (p : VlanPool) : Prop where
  reserved : ∀ e ∈ reservedClaims, e ∈ p.claims
  others : ∀ e ∈ p.claims, e ∈ reservedClaims ∨ (block 2 4095).encloses e.range
  nodup : p.claims.Nodup
  firstFree : ∀ w, p.firstFree = .ok w → ∀ v : ReservedVlan, w ≠ v.id
  freeBlock : ∀ size r, p.freeBlock size = .ok r → ∀ v : ReservedVlan, r.contains v.id = false
  answers : ∀ q a answer, VlanPool.perform p q = some a → a.answer = .ok answer →
    ∀ v : ReservedVlan, answer.hasId v.id = false

/-- A fenced pool guards the reserved ids. -/
theorem Fenced.guarded {p : VlanPool} (hp : Fenced p) : Guarded p where
  reserved e he := by
    obtain ⟨v, rfl⟩ := mem_reservedClaims.mp he
    exact hp.reserved v
  others e he := by
    rw [mem_reservedClaims]
    exact hp.others e he
  nodup := by
    -- No claim starts at two places.
    refine hp.within.sound.tidy.increasing.imp ?_
    rintro e f hlt rfl
    rw [Cut.lt_eq_not_le, Cut.le_refl] at hlt
    cases hlt
  firstFree _ := hp.ne_id_of_firstFree
  freeBlock _ _ := hp.not_contains_of_freeBlock
  answers _ _ _ h hanswer := hp.not_hasId_of_perform h hanswer

/-- **No request touches a reserved VLAN id.**  The pool of the VLAN ids is created without an
    error.  After any requests, with any ids, sizes and labels, met or refused, the claims on 0, 1
    and 4095 are those that it started with, every other claim is enclosed by `[2‥4095)`, and no id
    or block that is found or handed out has one of the three. -/
theorem run_guarded :
    Pool.create (.ofString "vlan") (some ⟨.closed 0 4095, Order.int64⟩) (some .int64) check first =
        .ok (initial, []) ∧
      ∀ qs, ∃ p, VlanPool.run initial qs = some p ∧ Guarded p := by
  refine ⟨create_initial, fun qs => ?_⟩
  obtain ⟨p, hrun, hp⟩ := exists_fenced qs
  exact ⟨p, hrun, hp.guarded⟩

/-- The reserved ids are asked for in vain, also by a block whose end exceeds a word; the requests
    between are met. -/
def sampleVlans : List Request :=
  [.claimSized 4094 2 (.ofStrings []), .claimFirst (.ofStrings []), .release 0,
    .claimBlock 4 (.ofStrings []), .claimSized 9223372036854775807 4095 (.ofStrings []),
    .relabel 1 (.ofStrings []), .releaseSized 4 2]

/-- Requests for reserved ids between others, and the claims after them. -/
theorem sampleVlans_guarded :
    ∃ p, VlanPool.run initial sampleVlans = some p ∧
      p.claims.map (fun e => e.range.text) =
        ["[0‥1)", "[1‥2)", "[2‥3)", "[3‥4)", "[6‥7)", "[4095‥4096)"] ∧ Guarded p := by
  have hclaims : (VlanPool.run initial sampleVlans).map
      (fun p => p.claims.map fun e => e.range.text) = some ["[0‥1)", "[1‥2)", "[2‥3)", "[3‥4)",
        "[6‥7)", "[4095‥4096)"] := by cbv
  obtain ⟨p, hrun, hclaims⟩ := Option.map_eq_some_iff.mp hclaims
  obtain ⟨p', hrun', hguarded⟩ := run_guarded.2 sampleVlans
  obtain rfl := Option.some.inj (hrun.symm.trans hrun')
  exact ⟨p, hrun, hclaims, hguarded⟩

end Allotment.VlanPool
