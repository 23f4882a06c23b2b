import Allotment.Proofs.Pool.Runs

namespace Allotment

/-!
# What a cut leaves of the claims

Cutting a range out of a pool looks for the claims that share a value with the range, drops each of
them and puts in what is left of it, one claim after the other.  The claims that are put in start at
places where no other claim starts, so in the end every claim that shares no value with the range
stands where it was, and every other one has been replaced by its parts.

* `Claim.Shares`, `Pool.Balanced.overlaps_iff_shares` — a claim overlaps a half-open range when they
  share a value;
* `Claim.Leaves` — what is left of a claim outside of a range;
* `Pool.Balanced.leaves_pieces` — the parts of a claim are what is left of it;
* `Pool.CutsOut`, `Pool.cutsOut_of_balanced` — which claims are found, and what the claims are after
  the cut.
-/

universe u

variable {α : Type u} {ρ : Type u} {cmp : α → α → Ordering}

namespace Claim

/-- A claim that has a value in common with a range. -/
def Shares (e : Claim α) (c : Range α) : Prop :=
  ∃ v, e.range.contains v ∧ c.contains v

/-- The claims `xs` are what is left of the claim `e` outside of the range `c`: one or two stretches
    of its values, or none, each of them in half-open form and with the labels of `e`.  Between two
    of them lies a part of the range. -/
structure Leaves (d : Domain α) (c : Range α) (e : Claim α) (xs : List (Claim α)) : Prop where
  length_le : xs.length ≤ 2
  labels : ∀ x ∈ xs, x.labels = e.labels
  order : ∀ x ∈ xs, x.range.cmp = e.range.cmp
  canonical : ∀ x ∈ xs, x.range.canonical d = x.range
  nonempty : ∀ x ∈ xs, ∃ v, x.range.contains v
  separate : xs.Pairwise fun x y => Cut.lt c.cmp x.range.upper y.range.lower
  contains_iff : ∀ v, (∃ x ∈ xs, x.range.contains v) ↔ e.range.contains v ∧ ¬ c.contains v

end Claim

namespace Pool

variable [Std.TransCmp cmp] {p : Pool α ρ} {c : Range α} {e : Claim α}

/-! ### Common values -/

/-- A claim and a half-open range that overlap share the first value of the one that starts later.
    The range may have no lower end, but a claim starts at a value. -/
theorem Balanced.overlaps_iff_shares (hp : p.Balanced cmp) (hc : c.cmp = cmp)
    (hopen : c.toInterval.HalfOpen) (hne : Cut.lt cmp c.lower c.upper) (he : e ∈ p.claims) :
    e.range.overlaps c ↔ e.Shares c := by
  have hene := hp.tidy.nonempty e he
  rw [Ledger.overlaps_iff (hp.kept.order e he) hene hne]
  simp only [Claim.Shares, hp.contains_iff_spans he, Range.contains_iff_spans hc]
  constructor
  · rintro ⟨hec, hce⟩
    by_cases hle : Cut.le cmp c.lower e.range.lower
    · obtain ⟨v, hv⟩ := (hp.fitting he).start hp
      refine ⟨v, ?_⟩
      unfold Interval.Spans
      rw [← hv]
      grind
    · -- The range starts after the claim does, so it is not the range that has no lower end.
      have hbottom : c.lower ≠ .bottom := fun h => hle (h ▸ Cut.bottom_le _)
      obtain ⟨v, hv⟩ := hopen.1.exists_below hbottom hne
      refine ⟨v, ?_⟩
      unfold Interval.Spans
      rw [← hv]
      grind
  · rintro ⟨v, hev, hcv⟩
    unfold Interval.Spans at hev hcv
    grind

/-! ### The parts of a claim -/

omit [Std.TransCmp cmp] in
/-- A claim leaves two parts at most. -/
theorem length_pieces_le (c : Range α) (e : Claim α) : (Ledger.pieces c e).length ≤ 2 := by
  unfold Ledger.pieces Ledger.partBefore Ledger.partAfter
  split <;> split <;> simp

omit [Std.TransCmp cmp] in
/-- The range lies between the two parts of a claim. -/
theorem pairwise_pieces (hne : Cut.lt c.cmp c.lower c.upper) (e : Claim α) :
    (Ledger.pieces c e).Pairwise fun x y => Cut.lt c.cmp x.range.upper y.range.lower := by
  refine List.pairwise_append.mpr ⟨?_, ?_, ?_⟩
  · unfold Ledger.partBefore
    split <;> simp
  · unfold Ledger.partAfter
    split <;> simp
  · intro x hx y hy
    obtain ⟨-, rfl⟩ := Ledger.mem_partBefore.mp hx
    obtain ⟨-, rfl⟩ := Ledger.mem_partAfter.mp hy
    exact hne

/-- Each part of a claim starts at a value: the first one where the claim does, and the other one
    where the range ends. -/
theorem Balanced.start_of_mem_pieces (hp : p.Balanced cmp) (hc : c.cmp = cmp)
    (hopen : c.toInterval.HalfOpen) (he : e ∈ p.claims) (hover : Cut.lt cmp e.range.lower c.upper)
    {x : Claim α} (hx : x ∈ Ledger.pieces c e) : ∃ v, x.range.lower = .below v := by
  rcases (Ledger.mem_pieces hx).2.2 with ⟨-, h⟩ | ⟨hlt, h⟩
  · rw [h]
    exact (hp.fitting he).start hp
  · rw [h]
    -- The range ends after the claim starts, so there is a value before its end.
    refine hopen.2.exists_below ?_ (hc ▸ hlt)
    intro hbottom
    have hfirst : Cut.le cmp .bottom e.range.lower := Cut.bottom_le _
    rw [hbottom] at hover
    grind

/-- The parts of a claim on either side of a range that overlaps it are what is left of it. -/
theorem Balanced.leaves_pieces (hp : p.Balanced cmp) (hc : c.cmp = cmp)
    (hopen : c.toInterval.HalfOpen) (hne : Cut.lt cmp c.lower c.upper) (he : e ∈ p.claims)
    (hover : Cut.lt cmp e.range.lower c.upper ∧ Cut.lt cmp c.lower e.range.upper) :
    e.Leaves p.domain c (Ledger.pieces c e) := by
  have htidy := Ledger.tidy_pieces (hp.tidy.halfOpen e he) hopen hne hc
  have horder : ∀ x ∈ Ledger.pieces c e, x.range.cmp = cmp := fun x hx =>
    (Ledger.mem_pieces hx).1.trans hc
  have hlabels : ∀ x ∈ Ledger.pieces c e, x.labels = e.labels := fun x hx =>
    (Ledger.mem_pieces hx).2.1
  refine ⟨length_pieces_le c e, hlabels, fun x hx => ?_, fun x hx => ?_, fun x hx => ?_,
    pairwise_pieces (hc.symm ▸ hne) e, fun v => ?_⟩
  · rw [horder x hx, hp.kept.order e he]
  · unfold Range.canonical
    rw [Interval.canonical_eq_self (htidy.halfOpen x hx)]
  · obtain ⟨v, hv⟩ := hp.start_of_mem_pieces hc hopen he hover.1 hx
    refine ⟨v, ?_⟩
    unfold Range.contains
    rw [horder x hx]
    exact Interval.contains_of_lower_eq hv (htidy.nonempty x hx)
  · rw [hp.contains_iff_spans he, Range.contains_iff_spans hc]
    -- The parts hold together what the claim holds outside of the range.
    have hheld := Ledger.held_pieces hc hover (.below v) e.labels
    rw [and_iff_left (rfl : e.labels = e.labels)] at hheld
    rw [← hheld]
    constructor
    · rintro ⟨x, hx, hcontains⟩
      exact ⟨x, hx, (Range.contains_iff_spans (horder x hx) v).mp hcontains, hlabels x hx⟩
    · rintro ⟨x, hx, hspan, -⟩
      exact ⟨x, hx, (Range.contains_iff_spans (horder x hx) v).mpr hspan⟩

/-! ### All claims -/

/-- Cutting the range `c` out of a pool: which claims are found for it, and what becomes of all
    claims. -/
structure CutsOut (cmp : α → α → Ordering) (c : Range α) (p : Pool α ρ) : Prop where
  increasing : (p.ledger.overlapping c).Pairwise fun e f => Cut.lt cmp e.range.lower f.range.lower
  nodup : (p.ledger.overlapping c).Nodup
  mem_overlapping_iff : ∀ e, e ∈ p.ledger.overlapping c ↔ e ∈ p.claims ∧ e.Shares c
  /-- Nothing fails and nothing but the ledger is changed.  Each claim is replaced in its place by
      some others, and no two of these start at the same place, so that none of them has taken the
      place of another one. -/
  replaced : ∃ (l : Ledger α) (rest : Claim α → List (Claim α)),
    p.cutClaims c = .done { p with ledger := l } () ∧ l.claims = p.claims.flatMap rest ∧
      l.claims.Pairwise (fun e f => Cut.lt cmp e.range.lower f.range.lower) ∧
      ∀ e ∈ p.claims, (e.Shares c → e.Leaves p.domain c (rest e)) ∧ (¬ e.Shares c → rest e = [e])

/-- **A cut touches the claims that share a value with the range, and no others.**  Take any pool
    whose claims are in order, and any range of its order that is half open and not empty.  The
    claims that are found for the range are those that share a value with it, in increasing order
    and each of them once.  The cut does not fail; it leaves every other claim as it is, and puts in
    the place of each claim that was found what is left of it outside of the range. -/
theorem cutsOut_of_balanced (hp : p.Balanced cmp) (hc : c.cmp = cmp)
    (hcanonical : c.canonical p.domain = c) (hne : c.isEmpty = false) : p.CutsOut cmp c := by
  have hopen : c.toInterval.HalfOpen := hcanonical ▸ Interval.halfOpen_canonical
    (d := p.domain) c.toInterval
  have hlt : Cut.lt cmp c.lower c.upper := by
    rw [Range.isEmpty, hc, Interval.isEmpty_eq_false_iff] at hne
    exact hne
  have hshares : ∀ e ∈ p.claims, e.range.overlaps c ↔ e.Shares c :=
    fun e he => hp.overlaps_iff_shares hc hopen hlt he
  -- The claims that are found stand side by side among all claims, which are in order.
  have hincreasing : (p.ledger.overlapping c).Pairwise fun e f =>
      Cut.lt cmp e.range.lower f.range.lower := by
    obtain ⟨pre, post, hclaims, -⟩ := Ledger.overlapping_spec hp.kept hp.tidy hc hlt
    have hall := hp.tidy.increasing
    rw [claims, hclaims, List.pairwise_append, List.pairwise_append] at hall
    exact hall.1.2.1
  obtain ⟨l, hcut, -, htidy, hclaims⟩ := Ledger.cut_eq_flatMap p.domain hp.kept hp.tidy hc hopen hlt
  refine ⟨hincreasing, hincreasing.imp ?_, fun e => ?_, l, Ledger.cutOut c, ?_, hclaims,
    htidy.increasing, ?_⟩
  · rintro e f hef rfl
    grind
  · rw [Ledger.mem_overlapping_iff hp.kept hp.tidy hc hlt]
    exact and_congr_right fun he => hshares e he
  · unfold cutClaims
    rw [hcut]
    rfl
  · intro e he
    rw [← hshares e he]
    refine ⟨fun hover => ?_, Ledger.cutOut_of_not_overlaps⟩
    rw [Ledger.cutOut_of_overlaps hover]
    have hcuts := (Ledger.overlaps_iff (hp.kept.order e he) (hp.tidy.nonempty e he) hlt).mp hover
    exact hp.leaves_pieces hc hopen hlt he hcuts

/-- A range that reaches into two claims and covers two others. -/
def sampleCut : Range Int64 :=
  ⟨.closedOpen 4 9, Order.int64⟩

/-- A range that cuts four claims of the sample pool, after which three claims are left. -/
theorem sampleRequests_cutsOut :
    ∃ p', samplePool.run sampleRequests = some p' ∧ p'.Balanced Order.int64 ∧
      sampleCut.canonical p'.domain = sampleCut ∧ sampleCut.isEmpty = false ∧
      p'.CutsOut Order.int64 sampleCut ∧ (p'.ledger.overlapping sampleCut).length = 4 ∧
      (p'.cutClaims sampleCut).state.count = 3 := by
  have hrun : (samplePool.run sampleRequests).map
      (fun p => ((p.ledger.overlapping sampleCut).length, (p.cutClaims sampleCut).state.count)) =
      some (4, 3) := by cbv
  obtain ⟨p', hrun, hcounts⟩ := Option.map_eq_some_iff.mp hrun
  have hwithin := within_run
    (within_create Domain.lawful_int64 rfl readIn_sampleFirst create_samplePool)
    readIn_sampleRequests hrun
  have hp : p'.Balanced Order.int64 := hwithin.sound
  have hcanonical : sampleCut.canonical p'.domain = sampleCut := rfl
  exact ⟨p', hrun, hp, hcanonical, rfl, cutsOut_of_balanced hp rfl hcanonical rfl,
    congrArg Prod.fst hcounts, congrArg Prod.snd hcounts⟩

end Pool

end Allotment
