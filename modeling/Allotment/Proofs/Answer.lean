import Mathlib.Data.List.Forall2

namespace Allotment.Answer

/-!
# Answers that may be errors

A question may be answered by a value or by an error.  Several questions in a row are answered when
each of them is, and a list of questions is answered by the list of the answers.

* `bind_eq_ok`, `mapError_eq_ok` — one question after another, and other words for the error;
* `mapM_eq_ok_iff`, `mem_iff_of_mapM_eq_ok`, `exists_mapM_eq_ok_iff` — a list of questions.
-/

universe u v w

variable {ε δ : Type u} {α : Type w} {β γ : Type v}

/-- What goes on from an answer is answered at both places. -/
theorem bind_eq_ok {x : Except ε β} {f : β → Except ε γ} {c : γ} :
    (x >>= f) = .ok c ↔ ∃ b, x = .ok b ∧ f b = .ok c := by
  cases x with
  | error e =>
    show Except.error e = .ok c ↔ _
    simp
  | ok b =>
    show f b = .ok c ↔ _
    simp

/-- Another form of the error leaves the answers as they are. -/
theorem mapError_eq_ok {x : Except ε β} {f : ε → δ} {b : β} : x.mapError f = .ok b ↔ x = .ok b := by
  cases x with
  | error e =>
    show Except.error (f e) = .ok b ↔ _
    simp
  | ok c =>
    show Except.ok c = .ok b ↔ _
    simp

/-- What is left when errors are dropped was an answer. -/
theorem eq_ok_of_toOption {x : Except ε β} {b : β} (h : x.toOption = some b) : x = .ok b := by
  cases x with
  | error e => cases h
  | ok c => rw [Option.some.inj h]

/-- A list of questions is answered by the list of the answers. -/
theorem mapM_eq_ok_iff {f : α → Except ε β} {xs : List α} {ys : List β} :
    xs.mapM f = .ok ys ↔ List.Forall₂ (fun x y => f x = .ok y) xs ys := by
  induction xs generalizing ys with
  | nil =>
    rw [List.mapM_nil, List.forall₂_nil_left_iff]
    show Except.ok [] = .ok ys ↔ ys = []
    rw [Except.ok.injEq]
    exact eq_comm
  | cons x xs ih =>
    rw [List.mapM_cons, List.forall₂_cons_left_iff]
    simp only [bind_eq_ok, ih]
    constructor
    · rintro ⟨y, hy, zs, hzs, hys⟩
      exact ⟨y, zs, hy, hzs, (Except.ok.inj hys).symm⟩
    · rintro ⟨y, zs, hy, hzs, rfl⟩
      exact ⟨y, hy, zs, hzs, rfl⟩

/-- The answers to a list of questions are the answers to each of them. -/
theorem mem_iff_of_mapM_eq_ok {f : α → Except ε β} {xs : List α} {ys : List β}
    (h : xs.mapM f = .ok ys) (y : β) : y ∈ ys ↔ ∃ x ∈ xs, f x = .ok y := by
  rw [mapM_eq_ok_iff] at h
  induction h with
  | nil => simp
  | cons hxy _ ih =>
    simp only [List.mem_cons, ih, exists_eq_or_imp, hxy, Except.ok.injEq]
    exact or_congr_left eq_comm

/-- A list of questions is answered when all of them are. -/
theorem exists_mapM_eq_ok_iff {f : α → Except ε β} {xs : List α} :
    (∃ ys, xs.mapM f = .ok ys) ↔ ∀ x ∈ xs, ∃ y, f x = .ok y := by
  simp only [mapM_eq_ok_iff]
  induction xs with
  | nil => simp
  | cons x xs ih =>
    simp only [List.forall_mem_cons, ← ih, List.forall₂_cons_left_iff]
    constructor
    · rintro ⟨_, y, zs, hy, hzs, -⟩
      exact ⟨⟨y, hy⟩, zs, hzs⟩
    · rintro ⟨⟨y, hy⟩, zs, hzs⟩
      exact ⟨_, y, zs, hy, hzs, rfl⟩

end Allotment.Answer
