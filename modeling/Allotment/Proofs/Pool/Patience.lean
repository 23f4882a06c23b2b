import Allotment.Proofs.Pool.Runs

namespace Allotment.Pool

/-!
# Searches end

The search for a value to claim climbs through the free values and is given up when it takes too
long.  Where the values have ranks that go down with every step it is not given up as long as the
patience exceeds the ranks.  So in a domain with enough patience every request is answered, and
every run of requests leads to a pool.

* `exists_claimWithin`, `exists_claimAmong`, `exists_claimFirst` — the search ends;
* `exists_run_of_keeps`, `exists_run` — all requests are answered.
-/

universe u

variable {α : Type u} {ρ : Type u} {cmp : α → α → Ordering} [Std.TransCmp cmp] {p : Pool α ρ}

section

variable {Q : α → Prop} {rank : α → Nat}

/-- The climb through one interval ends, by induction on the patience: each step takes one of it,
    and the rank goes down by one at least.  It comes to values of `Q` only. -/
theorem exists_claimWithin (hp : p.Balanced cmp) {i : Interval α}
    (hstep : ∀ v w, Q v → i.contains cmp v → p.domain.next v = some w → Q w ∧ rank w < rank v)
    (labels : Labels) {patience : Nat} {v : α} (hv : Q v) (hrank : rank v < patience) :
    ∃ a, claimWithin i labels patience p v = some a := by
  induction patience generalizing v with
  | zero => omega
  | succ patience ih =>
    unfold claimWithin
    by_cases hcontains : i.contains p.bounds.cmp v
    · rw [if_pos hcontains]
      rcases claim_cases hp v labels with ⟨e, hclaim⟩ | ⟨_, c, p', hclaim, -⟩
      · -- A value that cannot be claimed leaves the pool as it was, and the climb goes on.
        simp only [hclaim, Attempt.refuse_answer, Attempt.refuse_state]
        cases hnext : p.domain.next v with
        | none => exact ⟨_, rfl⟩
        | some w =>
          obtain ⟨hw, hlt⟩ := hstep v w hv (hp.order ▸ hcontains) hnext
          exact ih hw (by omega)
      · simp only [hclaim, Attempt.done_answer, Attempt.done_state]
        exact ⟨_, rfl⟩
    · rw [if_neg hcontains]
      exact ⟨_, rfl⟩

/-- The search through some intervals ends when the climb through each of them does. -/
theorem exists_claimAmong (hp : p.Balanced cmp) (hrank : ∀ v, rank v < p.domain.patience)
    (labels : Labels) {is : List (Interval α)}
    (hstart : ∀ i ∈ is, ∀ v, i.lower.endpoint? = some v → Q v)
    (hstep : ∀ i ∈ is, ∀ v w, Q v → i.contains cmp v → p.domain.next v = some w →
      Q w ∧ rank w < rank v) :
    ∃ a, claimAmong labels p is = some a := by
  induction is with
  | nil => exact ⟨_, rfl⟩
  | cons i is ih =>
    rw [List.forall_mem_cons] at hstart hstep
    unfold claimAmong
    cases hlower : i.lower.endpoint? with
    | none => exact ih hstart.2 hstep.2
    | some v =>
      obtain ⟨a, ha⟩ := exists_claimWithin hp hstep.1 labels (hstart.1 v hlower) (hrank v)
      simp only [ha, Option.bind_some]
      -- An interval without a value to claim leaves the pool as it was.
      rcases claimWithin_cases (Q := fun _ => True) (fun _ _ _ _ => trivial) i labels _ hp
          trivial ha with
        ⟨e, rfl⟩ | ⟨w, c, p', rfl, -⟩
      · exact ih hstart.2 hstep.2
      · exact ⟨_, rfl⟩

/-- The search comes to an end if from each value to the next some rank decreases that the patience
    exceeds. -/
theorem exists_claimFirst (hp : p.Balanced cmp) (hrank : ∀ v, rank v < p.domain.patience)
    (hstart : ∀ c, p.unclaimed = .ok c → ∀ i ∈ c.set.members, ∀ v, i.lower.endpoint? = some v → Q v)
    (hstep : ∀ c, p.unclaimed = .ok c → ∀ i ∈ c.set.members, ∀ v w, Q v → i.contains cmp v →
      p.domain.next v = some w → Q w ∧ rank w < rank v)
    (labels : Labels) : ∃ a, p.claimFirst labels = some a := by
  unfold claimFirst
  cases hfree : p.unclaimed with
  | error es => exact ⟨_, rfl⟩
  | ok c => exact exists_claimAmong hp hrank labels (hstart c hfree) (hstep c hfree)

end

omit [Std.TransCmp cmp] in
/-- Only a search could be given up. -/
theorem exists_perform (h : ∀ labels, ∃ a, p.claimFirst labels = some a) (q : Request α) :
    ∃ a, p.perform q = some a := by
  cases q with
  | claimFirst labels =>
    obtain ⟨a, ha⟩ := h labels
    exact ⟨a.map some, by simp only [perform, ha, Option.map_some]⟩
  | claim | claimRange | release | releaseRange | relabel | relabelRange => exact ⟨_, rfl⟩

omit [Std.TransCmp cmp] in
/-- Where searches end and this stays so, all requests are answered, one after another. -/
theorem exists_run_of_keeps {I : Pool α ρ → Prop} {R : Request α → Prop}
    (hends : ∀ p, I p → ∀ labels, ∃ a, p.claimFirst labels = some a)
    (hkeeps : ∀ p q a, I p → R q → p.perform q = some a → I a.state) (hp : I p)
    {qs : List (Request α)} (hqs : ∀ q ∈ qs, R q) : ∃ p', p.run qs = some p' := by
  induction qs generalizing p with
  | nil => exact ⟨p, rfl⟩
  | cons q qs ih =>
    rw [List.forall_mem_cons] at hqs
    obtain ⟨a, ha⟩ := exists_perform (hends p hp) q
    obtain ⟨p', hp'⟩ := ih (hkeeps p q a hp hqs.1 ha) hqs.2
    exact ⟨p', by simp only [run, ha, Option.bind_some, hp']⟩

/-- In a patient domain all requests are answered. -/
theorem exists_run (hp : p.Balanced cmp) (hd : p.domain.Patient) {qs : List (Request α)}
    (hqs : ∀ q ∈ qs, q.ReadIn cmp) : ∃ p', p.run qs = some p' := by
  refine exists_run_of_keeps (I := fun p => p.Balanced cmp ∧ p.domain.Patient) ?_ ?_ ⟨hp, hd⟩ hqs
  · rintro p ⟨hp, rank, hpatience, hrank⟩ labels
    exact exists_claimFirst (Q := fun _ => True) hp hpatience (fun _ _ _ _ _ _ => trivial)
      (fun _ _ _ _ v w _ _ hnext => ⟨trivial, hrank v w hnext⟩) labels
  · rintro p q a ⟨hp, hd⟩ hq ha
    exact (perform_cases hp hq ha).keeps (I := fun p => p.Balanced cmp ∧ p.domain.Patient)
      (fun _ _ _ _ hchanged => ⟨hchanged.balanced, hchanged.domain ▸ hd⟩) ⟨hp, hd⟩

end Allotment.Pool
