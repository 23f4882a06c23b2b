import Allotment.Proofs.Pool.Patience
import Allotment.Proofs.Pool.Requests

namespace Allotment.AddressPool

/-!
# Pools of addresses, asked by texts

A pool of addresses has its addresses in three forms: as a span, by which it tells the texts that
name an address of the pool; as the bounds of a plain pool, which keeps the claims; and, for the
free addresses, as a set of spans.  The three agree, at the ends of the two families too, where the
bounds of the plain pool go on to the first address of the other family or to no end at all.

* `Agrees` — the span and the bounds hold the same plain addresses;
* `agrees_create`, `Agrees.run` — so it is in a new pool, and after every run;
* `exists_free` — the free addresses can always be told;
* `Exact`, `run_exact` — what this means for the texts.
-/

variable {first last : Address} {p : AddressPool}

/-! ### The span and the bounds -/

/-- The span of a pool holds the plain addresses of its bounds; the claims change only at such
    addresses, and there is nothing else that speaks against a claim. -/
structure Agrees (p : AddressPool) : Prop where
  edged : p.pool.Edged Address.order Address.IsPlain
  domain : p.pool.domain = Address.domain
  proper : p.span.Proper
  contains_bounds : ∀ a, a.IsPlain → (p.pool.bounds.contains a ↔ p.span.contains a)
  passes : ∀ c, p.pool.check c = none

/-- A new pool of addresses agrees with the span that it was made of. -/
theorem agrees_create (h : create first last = .ok p) : p.Agrees := by
  obtain ⟨hspan, b, errors, hb, hcreate⟩ := create_eq_ok h
  have hproper : p.span.Proper := by
    have hvalid := (Address.ofSpan_eq_ok hb).1
    rw [hspan] at hvalid ⊢
    exact AddressSpan.proper_between hvalid
  -- The bounds are the range of the span, and this has the addresses of the span.
  obtain ⟨r, hr, hregular, -, hcontains⟩ := Address.ofSpan_spec hproper
  obtain rfl := Except.ok.inj (hb.symm.trans hr)
  obtain ⟨hedged, hbounds, hdomain, hcheck⟩ := Pool.edged_create Address.lawfulOn_domain
    (Pool.endsAt_of_grounded hregular.grounded) (by simp) hcreate
  refine ⟨hedged, hdomain, hproper, ?_, ?_⟩
  · rw [hbounds, hregular.canonical]
    exact hcontains
  · rw [hcheck]
    exact fun _ => rfl

/-- There is a pool for every span that is proper. -/
theorem exists_create_of_proper (h : (AddressSpan.between first last).Proper) :
    ∃ p, create first last = .ok p := by
  obtain ⟨b, hb, hregular, hlt, -⟩ := Address.ofSpan_spec h
  have hvalid : b.isValid := by
    unfold Range.isValid
    rw [hregular.grounded.order]
    exact Interval.isValid_of_lt hlt
  have hcreate := Pool.create_of_lt (ρ := Empty) hregular.grounded.order hvalid
    hregular.grounded.isBounded (hregular.canonical.symm ▸ hlt)
    (.ofString (AddressSpan.between first last).text) (fun _ => none) []
  exact ⟨⟨_, .between first last⟩, Answer.bind_eq_ok.mpr ⟨b, Answer.mapError_eq_ok.mpr hb,
    Answer.bind_eq_ok.mpr ⟨_, Answer.mapError_eq_ok.mpr hcreate, rfl⟩⟩⟩

/-- A request that begins with a question keeps the span when its other part does. -/
theorem span_andThen {β γ : Type} {e : Except Error β}
    {f : AddressPool → β → Attempt AddressPool Error γ} (hf : ∀ b, (f p b).state.span = p.span) :
    ((Attempt.ofExcept p e).andThen f).state.span = p.span := by
  cases e with
  | error e => rfl
  | ok b => exact hf b

/-- No request changes the span of a pool. -/
theorem span_perform {q : Request} {a : Attempt AddressPool Error (Option Address)}
    (h : p.perform q = some a) : a.state.span = p.span := by
  cases q with
  | claim t labels | relabel t labels =>
    obtain rfl := Option.some.inj h
    refine span_andThen fun b => ?_
    split <;> rfl
  | claimSpan t labels | claimNetwork t labels | release t | releaseSpan t =>
    obtain rfl := Option.some.inj h
    exact span_andThen fun b => rfl
  | claimFirst labels =>
    obtain ⟨b, hb, rfl⟩ := Option.map_eq_some_iff.mp h
    obtain ⟨c, -, rfl⟩ := Option.map_eq_some_iff.mp hb
    rfl

/-- After all requests a pool has the span that it had. -/
theorem span_run {p' : AddressPool} {qs : List Request} (h : p.run qs = some p') :
    p'.span = p.span := by
  induction qs generalizing p with
  | nil =>
    obtain rfl := Option.some.inj h
    rfl
  | cons q qs ih =>
    obtain ⟨a, ha, hrest⟩ := Option.bind_eq_some_iff.mp h
    rw [ih hrest, span_perform ha]

/-- Every run ends, and the span and the bounds agree after it.  The requests are plain requests
    about plain addresses. -/
theorem Agrees.run (hp : p.Agrees) (qs : List Request) :
    ∃ p', p.run qs = some p' ∧ p'.Agrees ∧ p'.span = p.span := by
  obtain ⟨ps, hps, hplain⟩ := on_run p qs
  -- There is patience for all addresses, so that every search for a free one ends.
  obtain ⟨q, hq⟩ := Pool.exists_run hp.edged.toBalanced (hp.domain ▸ Address.patient_domain)
    fun x hx => (hps x hx).readIn
  obtain ⟨hedged, hbounds, hdomain, hcheck⟩ := hp.edged.run hps hq
  rw [hq] at hplain
  obtain ⟨p', hrun, rfl⟩ := Option.map_eq_some_iff.mp hplain
  have hspan := span_run hrun
  refine ⟨p', hrun, ⟨hedged, hdomain.trans hp.domain, hspan ▸ hp.proper, ?_, ?_⟩, hspan⟩
  · rw [hbounds, hspan]
    exact hp.contains_bounds
  · rw [hcheck]
    exact hp.passes

/-! ### Addresses of the pool -/

namespace Agrees

variable (hp : p.Agrees)

include hp

/-- The free addresses are those of the span that lie in no claim. -/
theorem isFree_iff {a : Address} (ha : a.IsPlain) :
    p.pool.isFree a ↔ p.span.contains a ∧ ∀ e ∈ p.pool.claims, ¬ e.range.contains a := by
  rw [Pool.isFree_iff, hp.contains_bounds a ha, Pool.isClaimed,
    hp.edged.toBalanced.consistent.contains_iff]
  simp only [not_exists, not_and]

/-- The free addresses can always be told, and they are the ones that the pool answers for. -/
theorem exists_free :
    ∃ ts, p.free = .ok ts ∧ ts.Normal ∧ ∀ a, ts.Holds a ↔ a.IsPlain ∧ p.pool.isFree a := by
  have hpartitioned := hp.edged.toBalanced.partitioned hp.edged.nonempty
  obtain ⟨c, hok, hfree⟩ := hpartitioned.unclaimed
  obtain ⟨hunclaimed, hedged⟩ := hp.edged.edgedBy_unclaimed hok
  have hsound : View.Sound Address.order ⟨p.pool.free, .inside⟩ := by
    rw [hfree]
    exact ⟨hunclaimed.sound.order, hunclaimed.sound.normal⟩
  -- The free addresses change at plain addresses only, so each of their intervals has one to start
  -- at.
  have hregular := Address.regular_of_edgedBy hsound (by
    rw [hfree]
    exact hedged)
  obtain ⟨ts, hts, hnormal, hholds⟩ := Address.exists_toSet_of_regular hsound hregular
  refine ⟨ts, Answer.mapError_eq_ok.mpr hts, hnormal, fun a => ?_⟩
  rw [hholds, hpartitioned.isFree]
  rfl

/-- A span is claimed exactly when all its addresses are free. -/
theorem claimRange_answer_iff {s : AddressSpan} (hs : s.Proper) {r : Range Address}
    (hr : Address.ofSpan s = .ok r) (labels : Labels) :
    (p.pool.claimRange (some r) labels).answer = .ok () ↔ ∀ a, s.contains a → p.pool.isFree a := by
  obtain ⟨r', hr', hregular, -, hcontains⟩ := Address.ofSpan_spec hs
  obtain rfl := Except.ok.inj (hr.symm.trans hr')
  rw [hp.edged.claimRange_answer_iff hregular.grounded
    ⟨s.first, hs.first, (hcontains _ hs.first).mpr hs.contains_first⟩ (hp.passes _)]
  constructor
  · intro h a ha
    have hplain := AddressSpan.isPlain_of_contains ha
    exact h a hplain ((hcontains a hplain).mpr ha)
  · intro h a hplain ha
    exact h a ((hcontains a hplain).mp ha)

end Agrees

/-! ### Texts -/

/-- A text is free exactly when it is read as a free address. -/
theorem isFree_iff_exists (p : AddressPool) (t : Text) :
    p.isFree t ↔ ∃ a, p.address t = .ok a ∧ p.pool.isFree a := by
  unfold isFree
  cases p.address t <;> simp

/-- A text is claimed exactly when it is read as a claimed address. -/
theorem isClaimed_iff_exists (p : AddressPool) (t : Text) :
    p.isClaimed t ↔ ∃ a, p.address t = .ok a ∧ p.pool.isClaimed a := by
  unfold isClaimed
  cases p.address t <;> simp

/-- The pool of addresses answers as the pool within it does. -/
theorem after_answer_eq_ok {β : Type}
    {a : Attempt (Pool Address Empty) (ClaimError Address Empty) β} {b : β} :
    (p.after a).answer = .ok b ↔ a.answer = .ok b :=
  Attempt.mapError_answer_eq_ok

namespace Agrees

variable (hp : p.Agrees) (t : Text) (labels : Labels)

include hp

/-- The question whether a text names a free address never disagrees with the plain pool. -/
theorem claim_answer_iff : (p.claim t labels).answer = .ok () ↔ p.isFree t := by
  rw [isFree_iff_exists, claim, Attempt.andThen_answer_eq_ok]
  refine exists_congr fun a => and_congr_right fun ha => ?_
  have hanswer := hp.edged.claim_answer_iff (isPlain_of_address ha) (hp.passes _) labels
  by_cases hfree : p.pool.isFree a
  · simpa [Attempt.ofExcept, hfree, after_answer_eq_ok] using hanswer
  · simp [Attempt.ofExcept, hfree]

/-- Nor does the question whether it names one that is not free: an address of the pool that is not
    free is claimed. -/
theorem relabel_answer_iff : (p.relabel t labels).answer = .ok () ↔ p.isClaimed t := by
  rw [isClaimed_iff_exists, relabel, Attempt.andThen_answer_eq_ok]
  refine exists_congr fun a => and_congr_right fun ha => ?_
  have hanswer := hp.edged.relabel_answer_iff (isPlain_of_address ha) (hp.passes _) labels
  by_cases hfree : p.pool.isFree a
  · have hclaimed := ((p.pool.isFree_iff a).mp hfree).2
    simp [Attempt.ofExcept, hfree, hclaimed]
  · simpa [Attempt.ofExcept, hfree, after_answer_eq_ok] using hanswer

omit t in
/-- The ranges of what was read are claimed exactly when all addresses of its span are free. -/
theorem exists_claimRange_iff {ε β : Type} {x : Except ε β} {f : β → AddressSpan}
    (hf : ∀ b, x = .ok b → (f b).Proper) :
    (∃ r, (∃ b, x = .ok b ∧ Address.ofSpan (f b) = .ok r) ∧
      (p.pool.claimRange (some r) labels).answer = .ok ()) ↔
      ∃ b, x = .ok b ∧ ∀ a, (f b).contains a → p.pool.isFree a := by
  constructor
  · rintro ⟨r, ⟨b, hb, hr⟩, hanswer⟩
    exact ⟨b, hb, (hp.claimRange_answer_iff (hf b hb) hr labels).mp hanswer⟩
  · rintro ⟨b, hb, hfree⟩
    obtain ⟨r, hr, -⟩ := Address.ofSpan_spec (hf b hb)
    exact ⟨r, ⟨b, hb, hr⟩, (hp.claimRange_answer_iff (hf b hb) hr labels).mpr hfree⟩

/-- A span is claimed exactly when it can be read and all its addresses are free. -/
theorem claimSpan_answer_iff : (p.claimSpan t labels).answer = .ok () ↔
    ∃ s, AddressSpan.parse t = .ok s ∧ ∀ a, s.contains a → p.pool.isFree a := by
  rw [claimSpan, Attempt.andThen_answer_eq_ok]
  simp only [Attempt.ofExcept, spanRange_eq_ok_iff, after_answer_eq_ok]
  exact hp.exists_claimRange_iff labels (f := id) fun s hs => AddressSpan.proper_of_parse hs

/-- A network is claimed exactly when it can be read and all its addresses are free. -/
theorem claimNetwork_answer_iff : (p.claimNetwork t labels).answer = .ok () ↔
    ∃ n, Network.parse t = .ok n ∧ ∀ a, n.Holds a → p.pool.isFree a := by
  rw [claimNetwork, Attempt.andThen_answer_eq_ok]
  simp only [Attempt.ofExcept, networkRange_eq_ok_iff, after_answer_eq_ok]
  rw [hp.exists_claimRange_iff labels fun n hn => (Network.proper_of_parse hn).span_spec.1]
  refine exists_congr fun n => and_congr_right fun hn => forall_congr' fun a => ?_
  rw [(Network.proper_of_parse hn).span_spec.2]

end Agrees

/-! ### After every run -/

/-- The answers of a pool of the addresses from `first` to `last`, with the free addresses `ts`. -/
structure Exact (first last : Address) (p : AddressPool) (ts : AddressSet) : Prop where
  free : p.free = .ok ts
  normal : ts.Normal
  /-- The free addresses are those between the ends of the pool that lie in no claim. -/
  holds_iff : ∀ a, ts.Holds a ↔
    a.IsPlain ∧ first.le a ∧ a.le last ∧ ∀ e ∈ p.pool.claims, ¬ e.range.contains a
  isClaimed_iff : ∀ t, p.isClaimed t ↔
    ∃ a, Address.parse t = .ok a ∧ a.IsPlain ∧ first.le a ∧ a.le last ∧
      ∃ e ∈ p.pool.claims, e.range.contains a
  isFree_iff : ∀ t, p.isFree t ↔ ∃ a, Address.parse t = .ok a ∧ ts.Holds a
  claim_iff : ∀ t labels, (p.claim t labels).answer = .ok () ↔ p.isFree t
  relabel_iff : ∀ t labels, (p.relabel t labels).answer = .ok () ↔ p.isClaimed t
  claimSpan_iff : ∀ t labels, (p.claimSpan t labels).answer = .ok () ↔
    ∃ s, AddressSpan.parse t = .ok s ∧ ∀ a, s.contains a → ts.Holds a
  claimNetwork_iff : ∀ t labels, (p.claimNetwork t labels).answer = .ok () ↔
    ∃ n, Network.parse t = .ok n ∧ ∀ a, n.Holds a → ts.Holds a

/-- The answers for the addresses of the pool, said of the texts that name them. -/
theorem Agrees.exact (hp : p.Agrees) (hspan : p.span = ⟨first, last⟩) :
    ∃ ts, Exact first last p ts := by
  obtain ⟨ts, hfree, hnormal, hholds⟩ := hp.exists_free
  have hproper : AddressSpan.Proper ⟨first, last⟩ := hspan ▸ hp.proper
  have hcontains : ∀ a, p.span.contains a ↔ a.IsPlain ∧ first.le a ∧ a.le last := by
    intro a
    rw [hspan, hproper.contains_iff]
    refine and_congr_right fun ha => and_congr ?_ ?_
    · exact (hproper.first.le_iff ha).symm
    · exact (ha.le_iff hproper.last).symm
  have hclaimed : ∀ a, p.pool.isClaimed a ↔ ∃ e ∈ p.pool.claims, e.range.contains a :=
    hp.edged.toBalanced.consistent.contains_iff
  -- What is said of free addresses can be said of the set `ts`.
  have hfreeOf : ∀ s : Address → Prop, (∀ a, s a → a.IsPlain) →
      ((∀ a, s a → p.pool.isFree a) ↔ ∀ a, s a → ts.Holds a) := by
    intro s hs
    refine forall₂_congr fun a ha => ?_
    rw [hholds, and_iff_right (hs a ha)]
  exact ⟨ts,
    { free := hfree
      normal := hnormal
      holds_iff := by
        intro a
        rw [hholds]
        refine and_congr_right fun ha => ?_
        rw [hp.isFree_iff ha, hcontains, and_assoc, and_assoc, and_iff_right ha]
      isClaimed_iff := by
        intro t
        rw [isClaimed_iff_exists]
        refine exists_congr fun a => ?_
        rw [address_eq_ok_iff, hcontains, hclaimed, and_assoc, and_assoc, and_assoc]
      isFree_iff := by
        intro t
        rw [isFree_iff_exists]
        refine exists_congr fun a => ?_
        rw [address_eq_ok_iff, and_assoc, hholds]
        refine and_congr_right fun _ => ⟨fun h => ?_, fun h => ?_⟩
        · exact ⟨AddressSpan.isPlain_of_contains h.1, h.2⟩
        · exact ⟨((hp.isFree_iff h.1).mp h.2).1, h.2⟩
      claim_iff := hp.claim_answer_iff
      relabel_iff := hp.relabel_answer_iff
      claimSpan_iff := by
        intro t labels
        rw [hp.claimSpan_answer_iff]
        refine exists_congr fun s => and_congr_right fun _ => ?_
        exact hfreeOf (fun a => s.contains a) fun a ha => AddressSpan.isPlain_of_contains ha
      claimNetwork_iff := by
        intro t labels
        rw [hp.claimNetwork_answer_iff]
        refine exists_congr fun n => and_congr_right fun _ => ?_
        exact hfreeOf n.Holds fun a ha => ha.1 }⟩

/-- **A pool of addresses answers texts exactly.**  Take any two plain addresses of one family, in
    order, and any requests with any texts, met or refused.  There is a pool of the addresses from
    the first to the last, and the run of the requests ends.  Then the free addresses can be told,
    and they are exactly the plain addresses between the two that lie in no claim.  A text names a
    claimed address exactly when it reads as an address of the pool that lies in a claim, and a free
    one exactly when it reads as one of the free addresses.  An address is claimed exactly when it
    was free, and gets new labels exactly when it was claimed; a span or a network is claimed
    exactly when the text can be read and all its addresses were free. -/
theorem run_exact (hfirst : first.IsPlain) (hlast : last.IsPlain)
    (hwidth : first.width = last.width) (hle : first.le last) :
    ∃ p, create first last = .ok p ∧
      ∀ qs, ∃ p' ts, p.run qs = some p' ∧ Exact first last p' ts := by
  have hbetween := AddressSpan.between_eq hfirst hlast
  have hproper : AddressSpan.Proper ⟨first, last⟩ :=
    AddressSpan.proper_of_place_le hfirst hlast hwidth ((hfirst.le_iff hlast).mp hle)
  obtain ⟨p, hcreate⟩ := exists_create_of_proper (hbetween ▸ hproper)
  refine ⟨p, hcreate, fun qs => ?_⟩
  obtain ⟨p', hrun, hp', hspan⟩ := (agrees_create hcreate).run qs
  have hspan' : p'.span = ⟨first, last⟩ := hspan.trans ((create_eq_ok hcreate).1.trans hbetween)
  obtain ⟨ts, hexact⟩ := hp'.exact hspan'
  exact ⟨p', ts, hrun, hexact⟩

/-- Claims up to the end of the family.  One of them is refused for an address that is not in the
    pool, and one for an address that is claimed. -/
def sampleEdge : List Request :=
  [.claimNetwork (.ofString "255.255.255.254/31") (Pool.sampleLabels "a"),
    .release (.ofString "255.255.255.254"),
    .claimSpan (.ofString "255.255.255.0-255.255.255.9") (Pool.sampleLabels "b"),
    .claim (.ofString "255.255.254.255") (Pool.sampleLabels "c"),
    .claim (.ofString "255.255.255.4") (Pool.sampleLabels "d")]

/-- A pool at the end of a family, with two claims that are met and two that are refused. -/
theorem sampleEdge_exact :
    ∃ p p', create (.v4 0xffffff00) Address.lastV4 = .ok p ∧ p.run sampleEdge = some p' ∧
      Exact (.v4 0xffffff00) Address.lastV4 p' [⟨.v4 0xffffff0a, .v4 0xfffffffe⟩] := by
  have hfree : ((create (.v4 0xffffff00) Address.lastV4).toOption.bind (·.run sampleEdge)).bind
      (fun p => p.free.toOption) = some [⟨.v4 0xffffff0a, .v4 0xfffffffe⟩] := by
    decide +kernel
  obtain ⟨p, hcreate, hexact⟩ :=
    run_exact (Address.isPlain_v4 0xffffff00) Address.isPlain_lastV4 rfl rfl
  obtain ⟨p', ts, hrun, hp'⟩ := hexact sampleEdge
  simp only [hcreate, Except.toOption, Option.bind_some, hrun, hp'.free, Option.some.injEq] at hfree
  exact ⟨p, p', hcreate, hrun, hfree ▸ hp'⟩

end Allotment.AddressPool
