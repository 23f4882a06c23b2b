import Allotment.Pool.Address
import Allotment.Pool.Vlan
import Allotment.Proofs.Address.Conversion
import Allotment.Proofs.Pool.Edged

namespace Allotment

/-!
# Requests in other words

The pools of VLAN ids and of addresses have requests of their own, in which blocks are named by
their size and addresses by their texts.  What such a request does to a pool is what one request of
a plain pool does, or none when it names nothing.  So every run of them is a run of the plain pool,
and what holds after every run of the plain pool holds there too.

* `Pool.run_append` — a run in two parts;
* `Pool.Plain`, `Pool.plain_of_steps` — steps that are plain requests make runs that are;
* `VlanPool.plain_run`, `AddressPool.plain_run` — the runs of the two kinds of pools;
* `AddressPool.on_run` — what texts name are plain addresses and ranges between them.
-/

universe u v

namespace Pool

variable {α : Type u} {ρ : Type u} {R : Request α → Prop}

/-- Requests are performed one after the other. -/
theorem run_append (p : Pool α ρ) (qs qs' : List (Request α)) :
    p.run (qs ++ qs') = (p.run qs).bind fun p => p.run qs' := by
  induction qs generalizing p with
  | nil => rfl
  | cons q qs ih =>
    simp only [List.cons_append, run, Option.bind_assoc]
    exact congrArg _ (funext fun a => ih a.state)

theorem run_singleton (p : Pool α ρ) (q : Request α) : p.run [q] = (p.perform q).map (·.state) := by
  simp only [run]
  cases p.perform q <;> rfl

/-- The pool after something was done is the pool after some requests with the property `R`. -/
def Plain (R : Request α → Prop) (p : Pool α ρ) (p' : Option (Pool α ρ)) : Prop :=
  ∃ ps : List (Request α), (∀ q ∈ ps, R q) ∧ p' = p.run ps

/-- Requests of one kind are requests of a more general kind. -/
theorem Plain.mono {R' : Request α → Prop} {p : Pool α ρ} {p' : Option (Pool α ρ)}
    (h : Plain R p p') (hR : ∀ q, R q → R' q) : Plain R' p p' := by
  obtain ⟨ps, hps, hrun⟩ := h
  exact ⟨ps, fun q hq => hR q (hps q hq), hrun⟩

theorem plain_self (p : Pool α ρ) : Plain R p (some p) :=
  ⟨[], by simp, rfl⟩

theorem plain_perform (p : Pool α ρ) {q : Request α} (hq : R q) :
    Plain R p ((p.perform q).map (·.state)) :=
  ⟨[q], by simpa using hq, (p.run_singleton q).symm⟩

section

variable {σ : Type v} {Q : Type v} (pool : σ → Pool α ρ)

/-- A request that begins with a question does nothing when the answer is an error. -/
theorem plain_andThen {ε β γ : Type v} (s : σ) {e : Except ε β} {f : σ → β → Attempt σ ε γ}
    (hf : ∀ b, e = .ok b → Plain R (pool s) (some (pool (f s b).state))) :
    Plain R (pool s) (some (pool ((Attempt.ofExcept s e).andThen f).state)) := by
  cases e with
  | error e => exact plain_self _
  | ok b => exact hf b rfl

/-- Steps that are plain requests make runs that are.  By induction on the steps: the requests of
    the first one come before those of the others. -/
theorem plain_of_steps (step : σ → Q → Option σ) (run : σ → List Q → Option σ)
    (hnil : ∀ s, run s [] = some s)
    (hcons : ∀ s q qs, run s (q :: qs) = (step s q).bind fun s => run s qs)
    (hstep : ∀ s q, Plain R (pool s) ((step s q).map pool)) (s : σ) (qs : List Q) :
    Plain R (pool s) ((run s qs).map pool) := by
  induction qs generalizing s with
  | nil =>
    rw [hnil]
    exact plain_self _
  | cons q qs ih =>
    obtain ⟨ps, hps, hfirst⟩ := hstep s q
    rw [hcons]
    cases hnext : step s q with
    | none =>
      -- A step without an end is a request without one, and so is all that starts with it.
      rw [hnext] at hfirst
      exact ⟨ps, hps, hfirst⟩
    | some s' =>
      obtain ⟨ps', hps', hrest⟩ := ih s'
      rw [hnext, Option.map_some] at hfirst
      refine ⟨ps ++ ps', ?_, ?_⟩
      · intro x hx
        exact (List.mem_append.mp hx).elim (hps x) (hps' x)
      · rw [run_append, ← hfirst]
        exact hrest

end

end Pool

/-! ### VLAN ids -/

namespace VlanPool

/-- The first claims of the pool of VLAN ids. -/
def first : List (Option (Range Int64) × Labels) :=
  ReservedVlan.all.map fun v => (some ⟨.singleton v.id, Order.int64⟩, reservedLabels)

theorem readIn_first : ∀ e ∈ first, ∀ x, e.1 = some x → x.cmp = Order.int64 := by
  simp [first]

/-- The pool of VLAN ids is created without an error. -/
theorem create_initial :
    Pool.create (.ofString "vlan") (some ⟨.closed 0 4095, Order.int64⟩) (some .int64) check first =
      .ok (initial, []) :=
  rfl

/-- A block of VLAN ids is read in their order. -/
theorem cmp_of_sized {start size : Int64} {r : Range Int64} (h : sized start size = .ok r) :
    r.cmp = Order.int64 := by
  unfold sized at h
  split at h
  · cases h
  · cases h
    rfl

/-- A free block is found at the start of a free interval. -/
theorem exists_blockAt? {p : VlanPool} {size : Int64} {r : Range Int64}
    (h : p.freeBlock size = .ok r) :
    1 ≤ size.toInt ∧ ∃ i ∈ p.free.members, blockAt? size i = some r := by
  unfold freeBlock at h
  split at h
  · cases h
  next hsize =>
    split at h
    · next hfound =>
      cases h
      exact ⟨by omega, List.exists_of_findSome?_eq_some hfound⟩
    · cases h

/-- A block within an interval starts where the interval starts, and the interval is long enough for
    it. -/
theorem eq_of_blockAt? {size : Int64} {i : Interval Int64} {r : Range Int64}
    (h : blockAt? size i = some r) :
    size.toInt ≤ (i.upper.endpoint?.getD 0 - i.lower.endpoint?.getD 0).toInt ∧
      r = block (i.lower.endpoint?.getD 0) (i.lower.endpoint?.getD 0 + size) := by
  unfold blockAt? at h
  simp only at h
  split at h
  · next hroom =>
    cases h
    exact ⟨hroom, rfl⟩
  · cases h

/-- A free block is read in the order of the numbers. -/
theorem cmp_of_freeBlock {p : VlanPool} {size : Int64} {r : Range Int64}
    (h : p.freeBlock size = .ok r) : r.cmp = Order.int64 := by
  obtain ⟨-, i, -, hi⟩ := exists_blockAt? h
  rw [(eq_of_blockAt? hi).2]
  rfl

/-- Each request to a pool of VLAN ids is plain requests to the pool within it. -/
theorem plain_step (p : VlanPool) (q : Request) :
    Pool.Plain (Pool.Request.ReadIn Order.int64) p ((VlanPool.perform p q).map (·.state)) := by
  cases q with
  | claim v labels => exact Pool.plain_perform p (q := .claim v labels) trivial
  | claimFirst labels =>
    have hsame : (VlanPool.perform p (.claimFirst labels)).map (·.state) =
        (Pool.perform p (.claimFirst labels)).map (·.state) := by
      simp only [VlanPool.perform, Pool.perform, Option.map_map]
      rfl
    rw [hsame]
    exact Pool.plain_perform p trivial
  | claimSized start size labels =>
    exact Pool.plain_andThen id p (e := sized start size)
      (f := fun p r => (p.claimRange (some r) labels).mapError .claim) fun r hr =>
        Pool.plain_perform p (q := .claimRange (some r) labels)
          (Range.Optional.readIn_some (cmp_of_sized hr))
  | claimBlock size labels =>
    refine Pool.plain_andThen id p (e := p.freeBlock size)
      (f := fun p r => ((p.claimRange (some r) labels).mapError .claim).andThen fun p _ =>
        .done p r) fun r hr => ?_
    -- The block is the answer when the claim is met; the pool is that of the claim in any case.
    have hstate : (((p.claimRange (some r) labels).mapError SizeError.claim).andThen fun p _ =>
        Attempt.done p r).state = (p.claimRange (some r) labels).state := by
      unfold Attempt.andThen
      split <;> rfl
    simp only [id, hstate]
    exact Pool.plain_perform p (q := .claimRange (some r) labels)
      (Range.Optional.readIn_some (cmp_of_freeBlock hr))
  | release v => exact Pool.plain_perform p (q := .release v) trivial
  | releaseSized start size =>
    exact Pool.plain_andThen id p (e := sized start size)
      (f := fun p r => (p.releaseRange (some r)).mapError .claim) fun r hr =>
        Pool.plain_perform p (q := .releaseRange (some r))
          (Range.Optional.readIn_some (cmp_of_sized hr))
  | relabel v labels => exact Pool.plain_perform p (q := .relabel v labels) trivial

theorem run_cons (p : VlanPool) (q : Request) (qs : List Request) :
    VlanPool.run p (q :: qs) =
      ((VlanPool.perform p q).map (·.state)).bind fun p => VlanPool.run p qs := by
  rw [Option.bind_map]
  rfl

/-- The pool after any requests is the pool after some plain ones. -/
theorem plain_run (p : VlanPool) (qs : List Request) :
    Pool.Plain (Pool.Request.ReadIn Order.int64) p (VlanPool.run p qs) := by
  have hstep : ∀ (p : VlanPool) q,
      Pool.Plain (Pool.Request.ReadIn Order.int64) (id p)
        (((VlanPool.perform p q).map (·.state)).map id) := by
    intro p q
    rw [Option.map_id]
    exact plain_step p q
  have hrun := Pool.plain_of_steps id _ VlanPool.run (fun _ => rfl) run_cons hstep p qs
  rwa [Option.map_id] at hrun

end VlanPool

/-! ### Addresses -/

namespace AddressPool

/-- A pool of addresses is made from the range of its span. -/
theorem create_eq_ok {first last : Address} {p : AddressPool} (h : create first last = .ok p) :
    p.span = .between first last ∧ ∃ b errors, Address.ofSpan p.span = .ok b ∧
      Pool.create (.ofString p.span.text) (some b) (some Address.domain) (fun _ => none) [] =
        .ok (p.pool, errors) := by
  obtain ⟨b, hb, h⟩ := Answer.bind_eq_ok.mp h
  obtain ⟨⟨q, errors⟩, hcreate, h⟩ := Answer.bind_eq_ok.mp h
  obtain rfl := Except.ok.inj h
  exact ⟨rfl, b, errors, Answer.mapError_eq_ok.mp hb, Answer.mapError_eq_ok.mp hcreate⟩

/-- A pool of addresses holds a plain pool that was created. -/
theorem exists_create {first last : Address} {p : AddressPool} (h : create first last = .ok p) :
    ∃ name b errors, b.cmp = Address.order ∧
      Pool.create name (some b) (some Address.domain) (fun _ => none) [] =
        .ok (p.pool, errors) := by
  obtain ⟨-, b, errors, hb, hcreate⟩ := create_eq_ok h
  exact ⟨_, b, errors, (Address.ofSpan_eq_ok hb).2, hcreate⟩

/-- An address is read from a text that names one, if it lies in the span of the pool. -/
theorem address_eq_ok_iff {p : AddressPool} {t : Text} {a : Address} :
    p.address t = .ok a ↔ Address.parse t = .ok a ∧ p.span.contains a := by
  unfold address
  split
  · next hparse => simp [hparse]
  · next b hparse =>
    split
    · next hcontains =>
      simp only [hparse, Except.ok.injEq]
      exact ⟨fun h => ⟨h, h ▸ hcontains⟩, fun h => h.1⟩
    · next hout =>
      simp only [hparse, Except.ok.injEq, reduceCtorEq, false_iff, not_and]
      exact fun h => h ▸ hout

/-- The range of a text that names a span. -/
theorem spanRange_eq_ok_iff {t : Text} {r : Range Address} :
    spanRange t = .ok r ↔ ∃ s, AddressSpan.parse t = .ok s ∧ Address.ofSpan s = .ok r := by
  unfold spanRange
  simp only [Answer.bind_eq_ok, Answer.mapError_eq_ok]

/-- The range of a text that names a network. -/
theorem networkRange_eq_ok_iff {t : Text} {r : Range Address} :
    networkRange t = .ok r ↔ ∃ n, Network.parse t = .ok n ∧ Address.ofSpan n.span = .ok r := by
  unfold networkRange
  simp only [Answer.bind_eq_ok, Answer.mapError_eq_ok]
  rfl

/-- The range of a proper span is one between plain addresses. -/
theorem grounded_of_ofSpan {s : AddressSpan} (hs : s.Proper) {r : Range Address}
    (h : Address.ofSpan s = .ok r) : Recipe.Grounded Address.order Address.IsPlain r := by
  obtain ⟨r', hr', hregular, -⟩ := Address.ofSpan_spec hs
  obtain rfl := Except.ok.inj (h.symm.trans hr')
  exact hregular.grounded

/-- The ranges of spans end at plain addresses. -/
theorem grounded_of_spanRange {t : Text} {r : Range Address} (h : spanRange t = .ok r) :
    Recipe.Grounded Address.order Address.IsPlain r := by
  obtain ⟨s, hs, hr⟩ := spanRange_eq_ok_iff.mp h
  exact grounded_of_ofSpan (AddressSpan.proper_of_parse hs) hr

/-- The ranges of networks end at plain addresses. -/
theorem grounded_of_networkRange {t : Text} {r : Range Address} (h : networkRange t = .ok r) :
    Recipe.Grounded Address.order Address.IsPlain r := by
  obtain ⟨n, hn, hr⟩ := networkRange_eq_ok_iff.mp h
  exact grounded_of_ofSpan (Network.proper_of_parse hn).span_spec.1 hr

/-- The addresses of a pool are plain. -/
theorem isPlain_of_address {p : AddressPool} {t : Text} {a : Address} (h : p.address t = .ok a) :
    a.IsPlain :=
  AddressSpan.isPlain_of_contains (address_eq_ok_iff.mp h).2

/-- Each request to a pool of addresses is plain requests at plain addresses to the pool within
    it. -/
theorem on_step (p : AddressPool) (q : Request) :
    Pool.Plain (Pool.Request.On Address.order Address.IsPlain) p.pool
      ((p.perform q).map fun a => a.state.pool) := by
  have hon : ∀ {r : Range Address}, Recipe.Grounded Address.order Address.IsPlain r →
      ∀ x, some r = some x → Pool.EndsAt Address.order Address.IsPlain x := by
    rintro r hr x ⟨⟩
    exact Pool.endsAt_of_grounded hr
  cases q with
  | claim t labels =>
    refine Pool.plain_andThen AddressPool.pool p fun a ha => ?_
    -- An address that is not free is refused before the pool within is asked.
    split
    · exact Pool.plain_self _
    · exact Pool.plain_perform p.pool (q := .claim a labels) (isPlain_of_address ha)
  | claimSpan t labels =>
    exact Pool.plain_andThen AddressPool.pool p fun r hr =>
      Pool.plain_perform p.pool (q := .claimRange (some r) labels) (hon (grounded_of_spanRange hr))
  | claimNetwork t labels =>
    exact Pool.plain_andThen AddressPool.pool p fun r hr =>
      Pool.plain_perform p.pool (q := .claimRange (some r) labels)
        (hon (grounded_of_networkRange hr))
  | claimFirst labels =>
    have hsame : (p.perform (.claimFirst labels)).map (fun a => a.state.pool) =
        (p.pool.perform (.claimFirst labels)).map (·.state) := by
      simp only [AddressPool.perform, AddressPool.claimFirst, Pool.perform, Option.map_map]
      rfl
    rw [hsame]
    exact Pool.plain_perform p.pool trivial
  | release t =>
    exact Pool.plain_andThen AddressPool.pool p fun a ha =>
      Pool.plain_perform p.pool (q := .release a) (isPlain_of_address ha)
  | releaseSpan t =>
    exact Pool.plain_andThen AddressPool.pool p fun r hr =>
      Pool.plain_perform p.pool (q := .releaseRange (some r)) (hon (grounded_of_spanRange hr))
  | relabel t labels =>
    refine Pool.plain_andThen AddressPool.pool p fun a ha => ?_
    split
    · exact Pool.plain_self _
    · exact Pool.plain_perform p.pool (q := .relabel a labels) (isPlain_of_address ha)

theorem run_cons (p : AddressPool) (q : Request) (qs : List Request) :
    p.run (q :: qs) = ((p.perform q).map (·.state)).bind fun p => p.run qs := by
  rw [Option.bind_map]
  rfl

/-- The pool after any requests is the pool after some plain ones, about plain addresses. -/
theorem on_run (p : AddressPool) (qs : List Request) :
    Pool.Plain (Pool.Request.On Address.order Address.IsPlain) p.pool
      ((p.run qs).map AddressPool.pool) := by
  refine Pool.plain_of_steps AddressPool.pool _ AddressPool.run (fun _ => rfl) run_cons ?_ p qs
  intro p q
  rw [Option.map_map]
  exact on_step p q

/-- All requests to a pool of addresses are plain requests to the pool within it. -/
theorem plain_run (p : AddressPool) (qs : List Request) :
    Pool.Plain (Pool.Request.ReadIn Address.order) p.pool ((p.run qs).map AddressPool.pool) :=
  (on_run p qs).mono fun _ hq => hq.readIn

end AddressPool

end Allotment
