namespace Allotment

/-!
# Attempts

An attempt is what a state has become under a request, together with the answer to the request.  A
request that fails may have changed the state before it failed, so the state stands beside the
error.

* `Attempt.andThen` — goes on with another request, unless the first one failed;
* `Attempt.ofExcept` — a question, which leaves the state as it was;
* `Attempt.each` — one request for each element of a list, up to the first that fails.
-/

universe u v w x

/-- A state after a request, and the answer. -/
structure Attempt (σ : Type u) (ε : Type v) (β : Type w) where
  state : σ
  answer : Except ε β

namespace Attempt

variable {σ : Type u} {ε : Type v} {β : Type w}

/-- A request that was met. -/
def done (s : σ) (b : β) : Attempt σ ε β :=
  ⟨s, .ok b⟩

/-- A request that was refused. -/
def refuse (s : σ) (e : ε) : Attempt σ ε β :=
  ⟨s, .error e⟩

/-- A question asked of a state. -/
def ofExcept (s : σ) (e : Except ε β) : Attempt σ ε β :=
  ⟨s, e⟩

/-- A change with a list of what was refused; nothing refused means success. -/
def ofRefusals (c : σ × List ε) : Attempt σ (List ε) Unit :=
  ⟨c.1, if c.2.isEmpty then .ok () else .error c.2⟩

/-- Goes on with the answer to a request that was met. -/
def andThen {γ : Type x} (a : Attempt σ ε β) (f : σ → β → Attempt σ ε γ) : Attempt σ ε γ :=
  match a.answer with
  | .ok b => f a.state b
  | .error e => ⟨a.state, .error e⟩

/-- The same attempt, with the state seen as part of another one. -/
def mapState {τ : Type x} (f : σ → τ) (a : Attempt σ ε β) : Attempt τ ε β :=
  ⟨f a.state, a.answer⟩

/-- The same attempt, with other words for its errors. -/
def mapError {δ : Type x} (f : ε → δ) (a : Attempt σ ε β) : Attempt σ δ β :=
  ⟨a.state, a.answer.mapError f⟩

/-- The same attempt, with another answer when the request was met. -/
def map {γ : Type x} (f : β → γ) (a : Attempt σ ε β) : Attempt σ ε γ :=
  ⟨a.state, a.answer.map f⟩

/-- The state, when the request was met. -/
def toExcept (a : Attempt σ ε β) : Except ε σ :=
  a.answer.map fun _ => a.state

/-- One request for each element of a list, up to the first that fails. -/
def each (f : σ → β → Attempt σ ε Unit) (s : σ) : List β → Attempt σ ε Unit
  | [] => .done s ()
  | b :: bs => (f s b).andThen fun s _ => each f s bs

/-! ### Attempts whose parts are known -/

variable {γ : Type x}

@[simp] theorem done_answer (s : σ) (b : β) : (done s b : Attempt σ ε β).answer = .ok b :=
  rfl

@[simp] theorem done_state (s : σ) (b : β) : (done s b : Attempt σ ε β).state = s :=
  rfl

@[simp] theorem refuse_answer (s : σ) (e : ε) : (refuse s e : Attempt σ ε β).answer = .error e :=
  rfl

@[simp] theorem refuse_state (s : σ) (e : ε) : (refuse s e : Attempt σ ε β).state = s :=
  rfl

@[simp] theorem ofExcept_ok (s : σ) (b : β) : (ofExcept s (.ok b) : Attempt σ ε β) = done s b :=
  rfl

@[simp] theorem ofRefusals_nil (s : σ) :
    (ofRefusals (s, []) : Attempt σ (List ε) Unit) = done s () :=
  rfl

/-- After an answer the next attempt starts from the state that was reached. -/
@[simp] theorem andThen_done (s : σ) (b : β) (f : σ → β → Attempt σ ε γ) :
    (done s b).andThen f = f s b :=
  rfl

/-- An answer with other words for its errors is the same answer. -/
theorem mapError_answer_eq_ok {δ : Type x} {a : Attempt σ ε β} {f : ε → δ} {b : β} :
    (a.mapError f).answer = .ok b ↔ a.answer = .ok b := by
  obtain ⟨s, e⟩ := a
  cases e with
  | error e =>
    show Except.error (f e) = .ok b ↔ Except.error e = .ok b
    simp
  | ok c =>
    show (Except.ok c : Except δ β) = .ok b ↔ (Except.ok c : Except ε β) = .ok b
    simp

theorem map_answer_eq_ok {a : Attempt σ ε β} {f : β → γ} {c : γ} :
    (a.map f).answer = .ok c ↔ ∃ b, a.answer = .ok b ∧ f b = c := by
  obtain ⟨s, e⟩ := a
  cases e with
  | error e =>
    show Except.error e = .ok c ↔ ∃ b, Except.error e = .ok b ∧ f b = c
    simp
  | ok b =>
    show Except.ok (f b) = .ok c ↔ ∃ b', Except.ok b = .ok b' ∧ f b' = c
    simp

/-- What went on was answered at both places. -/
theorem andThen_answer_eq_ok {a : Attempt σ ε β} {f : σ → β → Attempt σ ε γ} {c : γ} :
    (a.andThen f).answer = .ok c ↔ ∃ b, a.answer = .ok b ∧ (f a.state b).answer = .ok c := by
  obtain ⟨s, e⟩ := a
  cases e with
  | error e =>
    show Except.error e = .ok c ↔ ∃ b, Except.error e = .ok b ∧ (f s b).answer = .ok c
    simp
  | ok b =>
    show (f s b).answer = .ok c ↔ ∃ b', Except.ok b = .ok b' ∧ (f s b').answer = .ok c
    simp

@[simp] theorem toExcept_done (s : σ) (b : β) : (done s b : Attempt σ ε β).toExcept = .ok s :=
  rfl

end Attempt

end Allotment
