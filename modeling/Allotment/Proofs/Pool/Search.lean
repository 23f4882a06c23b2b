import Allotment.Pool.Shape

namespace Allotment

/-!
# Searching a list in order

In a list that is in the order of a probe, the elements before what is looked for come first and
those after it come last; at most one element is in between.  `Probe.Splits` says where the two
borders are, and every search gives them back:

* `Splits.place_eq`, `Splits.start_find`, `Splits.stop_find` — halving a list;
* `Splits.window` — a stretch of a list, with the borders moved into it;
* `Splits.elementsAt` — some elements of a list, such as those between the children of a node.
-/

universe u

/-- The place between two borders of which the second comes at most one element later. -/
def Spot.ofBorders (a b : Nat) : Spot :=
  if a = b then .between a else .taken a

theorem Spot.start_ofBorders (a b : Nat) : (Spot.ofBorders a b).start = a := by
  unfold Spot.ofBorders
  split <;> rfl

theorem Spot.stop_ofBorders {a b : Nat} (hle : a ≤ b) (hsucc : b ≤ a + 1) :
    (Spot.ofBorders a b).stop = b := by
  unfold Spot.ofBorders
  split
  · assumption
  · show a + 1 = b
    omega

namespace Probe

variable {β : Type u} {q : Probe β} {xs : List β} {a b : Nat}

/-- The first `a` elements come before what is looked for, and all from the place `b` on come after
    it. -/
structure Splits (q : Probe β) (xs : List β) (a b : Nat) : Prop where
  le : a ≤ b
  le_succ : b ≤ a + 1
  le_length : b ≤ xs.length
  isAfter : ∀ i x, xs[i]? = some x → (q.isAfter x = true ↔ i < a)
  isBefore : ∀ i x, xs[i]? = some x → (q.isBefore x = true ↔ b ≤ i)

/-! ### Halving -/

/-- Halving finds the place from which on all elements come after what is looked for. -/
theorem place_eq (hb : b ≤ xs.length)
    (h : ∀ i x, xs[i]? = some x → (q.isBefore x = true ↔ b ≤ i)) : q.place xs = b := by
  fun_induction q.place xs generalizing b with
  | case1 xs hdrop =>
    have hlen := List.drop_eq_nil_iff.mp hdrop
    omega
  -- The middle comes after what is looked for, so the border is in the first half.
  | case2 xs x after hdrop hbefore ih =>
    have hx : xs[xs.length / 2]? = some x := by
      rw [← List.head?_drop, hdrop, List.head?_cons]
    have hmid := (h _ x hx).mp hbefore
    refine ih ?_ ?_
    · rw [List.length_take]
      omega
    · intro i y hy
      rw [List.getElem?_take] at hy
      split at hy
      · exact h i y hy
      · cases hy
  -- The middle does not, so the border is past it and moves by what is left out.
  | case3 xs x after hdrop hbefore ih =>
    have hx : xs[xs.length / 2]? = some x := by
      rw [← List.head?_drop, hdrop, List.head?_cons]
    have hmid : ¬ b ≤ xs.length / 2 := fun hle => hbefore ((h _ x hx).mpr hle)
    have hafter : after = xs.drop (xs.length / 2 + 1) := by
      rw [← List.tail_drop, hdrop, List.tail_cons]
    have hrest : q.place after = b - (xs.length / 2 + 1) := by
      refine ih ?_ ?_
      · rw [hafter, List.length_drop]
        omega
      · intro i y hy
        rw [hafter, List.getElem?_drop] at hy
        rw [h _ y hy]
        omega
    omega

namespace Splits

/-- Halving finds the second border. -/
theorem place_eq (h : q.Splits xs a b) : q.place xs = b :=
  Probe.place_eq h.le_length h.isBefore

/-- A search finds the element between the borders, if there is one. -/
theorem find_eq (h : q.Splits xs a b) : q.find xs = .ofBorders a b := by
  have hplace := h.place_eq
  obtain ⟨hle, hsucc, hlen, hafter, -⟩ := h
  unfold find Spot.ofBorders
  simp only [hplace]
  cases hlast : (xs.take b).getLast? with
  | none =>
    have hnil : xs.take b = [] := List.getLast?_eq_none_iff.mp hlast
    have hzero : b = 0 := by
      have hzero' := congrArg List.length hnil
      rw [List.length_take, List.length_nil] at hzero'
      omega
    obtain rfl : a = b := by omega
    rw [if_pos rfl]
  | some x =>
    have hpos : 0 < b := by
      cases b with
      | zero => simp at hlast
      | succ b => omega
    have hx : xs[b - 1]? = some x := by
      rw [List.getLast?_eq_getElem?, List.length_take, List.getElem?_take] at hlast
      rw [Nat.min_eq_left hlen, if_pos (by omega)] at hlast
      exact hlast
    -- The element before the border `b` is the one in between, unless it is before `a` too.
    simp only [hafter _ x hx]
    by_cases hab : a = b
    · rw [if_pos (by omega), if_pos hab, hab]
    · rw [if_neg (by omega), if_neg hab]
      congr 1
      omega

theorem start_find (h : q.Splits xs a b) : (q.find xs).start = a := by
  rw [h.find_eq, Spot.start_ofBorders]

theorem stop_find (h : q.Splits xs a b) : (q.find xs).stop = b := by
  rw [h.find_eq, Spot.stop_ofBorders h.le h.le_succ]

/-! ### Parts of a list -/

/-- The borders in a stretch of a list. -/
theorem window (h : q.Splits xs a b) {o n : Nat} (hn : o + n ≤ xs.length) :
    q.Splits ((xs.drop o).take n) (min (a - o) n) (min (b - o) n) := by
  obtain ⟨hle, hsucc, hlen, hafter, hbefore⟩ := h
  -- An element of the part is an element of the list, further on by the start of the part.
  have hget : ∀ i x, ((xs.drop o).take n)[i]? = some x → i < n ∧ xs[o + i]? = some x := by
    intro i x hx
    rw [List.getElem?_take, List.getElem?_drop] at hx
    split at hx
    · exact ⟨by assumption, hx⟩
    · cases hx
  refine ⟨by omega, by omega, ?_, ?_, ?_⟩
  · rw [List.length_take, List.length_drop]
    omega
  · intro i x hx
    obtain ⟨hi, hx'⟩ := hget i x hx
    rw [hafter _ x hx']
    omega
  · intro i x hx
    obtain ⟨hi, hx'⟩ := hget i x hx
    rw [hbefore _ x hx']
    omega

/-- A search in a stretch around the borders finds them. -/
theorem findWithin_eq (h : q.Splits xs a b) {o n : Nat} (hn : o + n ≤ xs.length) (ho : o ≤ a)
    (hb : b ≤ o + n) : q.findWithin xs o n = .ofBorders a b := by
  have hle := h.le
  have hmin : min (a - o) n = a - o ∧ min (b - o) n = b - o := by omega
  unfold findWithin
  rw [(h.window hn).find_eq, hmin.1, hmin.2]
  unfold Spot.ofBorders
  by_cases hab : a = b
  · rw [if_pos (by omega), if_pos hab, Spot.shift]
    congr 1
    omega
  · rw [if_neg (by omega), if_neg hab, Spot.shift]
    congr 1
    omega

/-- The search in a part starts at the first border, or at an end of the part if the border is
    outside. -/
theorem start_findWithin (h : q.Splits xs a b) {o n : Nat} (hn : o + n ≤ xs.length) :
    (q.findWithin xs o n).start = o + min (a - o) n := by
  have hstart := (h.window hn).start_find
  unfold findWithin
  rw [← hstart]
  cases q.find ((xs.drop o).take n) <;> rfl

theorem stop_findWithin (h : q.Splits xs a b) {o n : Nat} (hn : o + n ≤ xs.length) :
    (q.findWithin xs o n).stop = o + min (b - o) n := by
  have hstop := (h.window hn).stop_find
  unfold findWithin
  rw [← hstop]
  cases q.find ((xs.drop o).take n) with
  | taken k => exact Nat.add_assoc o k 1
  | between k => rfl

/-- Along increasing positions, those below a bound come first. -/
theorem lt_countP_iff {ps : List Nat} (hps : ps.Pairwise (· < ·)) (m : Nat) {i p : Nat}
    (hp : ps[i]? = some p) : i < ps.countP (· < m) ↔ p < m := by
  induction ps generalizing i with
  | nil => simp at hp
  | cons r ps ih =>
    obtain ⟨hr, htail⟩ := List.pairwise_cons.mp hps
    -- If the first is not less, none is.
    have hnone : ¬ r < m → ps.countP (· < m) = 0 := by
      intro hge
      rw [List.countP_eq_zero]
      intro p hp
      have hrp := hr p hp
      simp only [decide_eq_true_eq]
      omega
    rw [List.countP_cons]
    cases i with
    | zero =>
      obtain rfl : r = p := by simpa using hp
      by_cases hlt : r < m
      · simp [hlt]
      · simp [hlt, hnone hlt]
    | succ i =>
      have hp' : ps[i]? = some p := by simpa using hp
      have hmem : r < p := hr p (List.mem_of_getElem? hp')
      have ih' := ih htail hp'
      by_cases hlt : r < m
      · simp only [hlt, decide_true, if_true, Nat.add_lt_add_iff_right]
        exact ih'
      · have hzero := hnone hlt
        simp only [hlt, decide_false, Bool.false_eq_true, if_false]
        omega

/-- The elements at some increasing positions. -/
theorem getElem?_elementsAt {ps : List Nat} (hps : ∀ p ∈ ps, p < xs.length) (i : Nat) :
    (Shape.elementsAt xs ps)[i]? = ps[i]?.bind fun p => xs[p]? := by
  induction ps generalizing i with
  | nil => rfl
  | cons p ps ih =>
    have hp := hps p (List.mem_cons_self ..)
    have ih' := ih fun x hx => hps x (List.mem_cons_of_mem _ hx)
    unfold Shape.elementsAt at ih' ⊢
    rw [List.filterMap_cons, List.getElem?_eq_getElem hp]
    cases i with
    | zero => simp [hp]
    | succ i => simpa using ih' i

/-- There is one element for each position. -/
theorem length_elementsAt {ps : List Nat} (hps : ∀ p ∈ ps, p < xs.length) :
    (Shape.elementsAt xs ps).length = ps.length := by
  induction ps with
  | nil => rfl
  | cons p ps ih =>
    have hp := hps p (List.mem_cons_self ..)
    have ih' := ih fun x hx => hps x (List.mem_cons_of_mem _ hx)
    unfold Shape.elementsAt at ih' ⊢
    rw [List.filterMap_cons, List.getElem?_eq_getElem hp]
    simpa using ih'

/-- The borders among the elements at some increasing positions. -/
theorem elementsAt (h : q.Splits xs a b) {ps : List Nat} (hps : ps.Pairwise (· < ·))
    (hlt : ∀ p ∈ ps, p < xs.length) :
    q.Splits (Shape.elementsAt xs ps) (ps.countP (· < a)) (ps.countP (· < b)) := by
  obtain ⟨hle, hsucc, hlen, hafter, hbefore⟩ := h
  have hget : ∀ (i : Nat) x, (Shape.elementsAt xs ps)[i]? = some x →
      ∃ p, ps[i]? = some p ∧ xs[p]? = some x := by
    intro i x hx
    rw [getElem?_elementsAt hlt] at hx
    exact Option.bind_eq_some_iff.mp hx
  refine ⟨?_, ?_, ?_, ?_, ?_⟩
  · refine List.countP_mono_left fun p _ hp => ?_
    simp only [decide_eq_true_eq] at hp ⊢
    omega
  · -- Two positions below `b` and not below `a` would be the same.
    refine Nat.le_of_not_lt fun hgap => ?_
    have hlen' : ps.countP (· < b) ≤ ps.length := List.countP_le_length
    have hfirst : ps.countP (· < a) < ps.length := by omega
    have hnext : ps.countP (· < a) + 1 < ps.length := by omega
    have hnotBelow := lt_countP_iff hps a (List.getElem?_eq_getElem hfirst)
    have hbelow := lt_countP_iff hps b (List.getElem?_eq_getElem hnext)
    have hinc := List.pairwise_iff_getElem.mp hps _ _ hfirst hnext (Nat.lt_succ_self _)
    omega
  · rw [length_elementsAt hlt]
    exact List.countP_le_length
  · intro i x hx
    obtain ⟨p, hp, hx'⟩ := hget i x hx
    rw [hafter p x hx', lt_countP_iff hps a hp]
  · intro i x hx
    obtain ⟨p, hp, hx'⟩ := hget i x hx
    have hlt' := lt_countP_iff hps b hp
    rw [hbefore p x hx']
    omega

end Splits

end Probe

end Allotment
