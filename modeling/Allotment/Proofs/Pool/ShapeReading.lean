import Allotment.Proofs.Pool.ShapeEditing

namespace Allotment.Shape

/-!
# Elements read along a shape

The last element up to a probe and the elements from a probe on are where `Probe.Splits` says,
whatever the shape is.

* `last?_eq` — the last element up to the probe;
* `startingAt_eq` — the elements from the probe on.
-/

universe u

variable {β : Type u} {q : Probe β} {xs : List β} {a b : Nat}

/-- The elements up to the one searched for are those before the second border. -/
theorem isUpTo_iff (h : q.Splits xs a b) {p : Nat} (hp : p < xs.length) :
    (xs[p]?.any (isUpTo q)) = true ↔ p < b := by
  have hle := h.le
  have hafter := h.isAfter p _ (List.getElem?_eq_getElem hp)
  have hbefore := h.isBefore p _ (List.getElem?_eq_getElem hp)
  simp only [List.getElem?_eq_getElem hp, Option.any_some, isUpTo, Bool.or_eq_true,
    Bool.not_eq_true', ← Bool.not_eq_true, hafter, hbefore]
  omega

/-- In a list in increasing order, the elements before one of them are those that differ from it. -/
theorem length_takeWhile_ne {ps : List Nat} (hps : ps.Pairwise (· < ·)) {j p : Nat}
    (hp : ps[j]? = some p) : (ps.takeWhile fun p' => p' != p).length = j := by
  induction ps generalizing j with
  | nil => simp at hp
  | cons r ps ih =>
    obtain ⟨hr, htail⟩ := List.pairwise_cons.mp hps
    cases j with
    | zero =>
      obtain rfl : r = p := by simpa using hp
      simp
    | succ j =>
      have hp' : ps[j]? = some p := by simpa using hp
      -- The positions increase, so the first one is not the one looked for.
      have hlt := hr p (List.mem_of_getElem? hp')
      have hne : (r != p) = true := by
        rw [bne_iff_ne]
        omega
      simp only [List.takeWhile_cons, hne, if_true, List.length_cons, ih htail hp']

/-- The last position of a leaf up to the probe. -/
theorem find?_isUpTo_eq (h : q.Splits xs a b) {o n : Nat} (ho : o ≤ b) (hb : b ≤ o + n)
    (hlen : o + n ≤ xs.length) :
    (((List.range (q.findWithin xs o n).stop).drop o).reverse.find? fun p =>
        xs[p]?.any (isUpTo q)) =
      if o < b then some (b - 1) else none := by
  have hstop : (q.findWithin xs o n).stop = b := by
    rw [h.stop_findWithin hlen]
    omega
  rw [hstop]
  by_cases hlt : o < b
  · rw [if_pos hlt]
    obtain ⟨m, rfl⟩ : ∃ m, b = m + 1 := ⟨b - 1, by omega⟩
    have hup := (isUpTo_iff h (p := m) (by omega)).mpr (by omega)
    rw [List.range_succ, List.drop_append_of_le_length (by rw [List.length_range]; omega),
      List.reverse_append]
    simp [hup]
  · rw [if_neg hlt, List.drop_eq_nil_iff.mpr (by rw [List.length_range]; omega)]
    rfl

/-- The last element up to the probe is the one before the second border, if that is in the node. -/
theorem lastIn?_eq (h : q.Splits xs a b) (fuel : Nat) {o : Nat} {s : Shape} (hs : Grouped s)
    (ho : o ≤ b) (hb : b ≤ o + s.size) (hlen : o + s.size ≤ xs.length) :
    lastIn? q xs fuel o s = if o < b then some (b - 1) else none := by
  induction fuel generalizing o s with
  | zero =>
    simp only [lastIn?]
    exact find?_isUpTo_eq h ho hb hlen
  | succ fuel ih =>
    cases hs with
    | leaf n =>
      simp only [lastIn?]
      exact find?_isUpTo_eq h ho hb hlen
    | @inner cs hne hcs =>
      have hpos := sizeAll_pos hne
      rw [size_inner] at hb hlen
      have hseps : ∀ p ∈ separators o cs, p < xs.length := by
        intro p hp
        have hp' := mem_separators hp
        omega
      obtain ⟨c, hc, hlow, hhigh⟩ := child_of_place hne ho (show b < o + sizeAll cs by omega)
      have hend := offset_add_size_lt o hc
      have hgrouped := hcs c (List.mem_of_getElem? hc)
      have hlength : _ < cs.length := (List.getElem?_eq_some_iff.mp hc).1
      simp only [lastIn?, (h.elementsAt (pairwise_separators o cs) hseps).stop_find]
      cases hk : (separators o cs).countP (· < b) with
      | zero =>
        -- All elements between the children are past the probe: it is in the first child.
        rw [hk] at hc hlow hhigh hend
        rw [List.take_zero, List.reverse_nil, List.find?_nil]
        rw [List.head?_eq_getElem?, hc]
        have hzero : offset o cs 0 = o := by simp [offset]
        rw [hzero] at hlow hhigh hend
        exact ih hgrouped ho hhigh (by omega)
      | succ j =>
        rw [hk] at hc hlow hhigh hend hlength
        obtain ⟨d, hd⟩ : ∃ d, cs[j]? = some d := ⟨_, List.getElem?_eq_getElem (by omega)⟩
        have hget := getElem?_separators o hd hlength
        have hsucc := offset_succ o hd
        have hmem := hseps _ (List.mem_of_getElem? hget)
        have hge := (mem_separators (List.mem_of_getElem? hget)).1
        have hup := (isUpTo_iff h hmem).mpr (by omega)
        have hj := length_takeWhile_ne (pairwise_separators o cs) hget
        -- The separator before the child is up to the probe; it is the answer when the child has
        -- none.
        have hrec := ih hgrouped (o := offset o cs j + d.size + 1) (by omega) (by omega) (by omega)
        simp only [List.take_add_one, hget, Option.toList_some, List.reverse_append,
          List.reverse_cons, List.reverse_nil, List.nil_append, List.cons_append, List.find?_cons,
          hup, hj, hc, Option.bind_some, hrec]
        by_cases hlt : offset o cs j + d.size + 1 < b
        · rw [if_pos hlt, if_pos (by omega)]
          rfl
        · rw [if_neg hlt, if_pos (by omega), Option.none_or]
          congr 1
          omega

/-- The last element up to the one searched for is the one before the second border. -/
theorem last?_eq (h : q.Splits xs a b) {s : Shape} (hs : Grouped s) (hlen : s.size = xs.length) :
    last? q xs s = if 0 < b then some (b - 1) else none := by
  have hb := h.le_length
  exact lastIn?_eq h s.height hs (Nat.zero_le b) (by omega) (by omega)

theorem drop_range_succ {m n : Nat} (h : m ≤ n) :
    (List.range (n + 1)).drop m = (List.range n).drop m ++ [n] := by
  rw [List.range_succ, List.drop_append_of_le_length (by simpa using h)]

theorem drop_range_append {m n : Nat} (h : m ≤ n) (k : Nat) :
    (List.range n).drop m ++ (List.range (n + k)).drop n = (List.range (n + k)).drop m := by
  have hsplit : (List.range (n + k)).drop m = (List.range n).drop m ++
      (List.range k).map (n + ·) := by
    rw [List.range_add, List.drop_append_of_le_length (by simpa using h)]
  rw [hsplit, List.range_add, List.drop_left' List.length_range]

/-- The starts of the later children, without the first ones. -/
theorem drop_starts (o : Nat) (cs : List Shape) (k : Nat) :
    (starts o cs).drop k = starts (offset o cs k) (cs.drop k) := by
  induction cs generalizing o k with
  | nil => simp [starts]
  | cons c cs ih =>
    cases k with
    | zero => simp [offset]
    | succ k =>
      rw [starts, List.drop_succ_cons, List.drop_succ_cons, offset_cons, ih]

/-- The positions from the first border on, child by child, when the border is in the first one or
    before it. -/
theorem flatMap_fromIn {fuel : Nat}
    (hrec : ∀ {o : Nat} {s : Shape}, Grouped s → o + s.size ≤ xs.length → a ≤ o + s.size →
      fromIn q xs fuel o s = (List.range (o + s.size)).drop (max o a))
    {o : Nat} {cs : List Shape} (hcs : ∀ c ∈ cs, Grouped c) (hlen : o + sizeAll cs ≤ xs.length + 1)
    (ha : ∀ c, cs.head? = some c → a ≤ o + c.size) :
    ((cs.zip (starts o cs)).flatMap fun (c, start) =>
        fromIn q xs fuel start c ++ [start + c.size]) =
      (List.range (o + sizeAll cs)).drop (max o a) := by
  induction cs generalizing o with
  | nil =>
    rw [sizeAll_nil, List.drop_eq_nil_iff.mpr (by rw [List.length_range]; omega)]
    rfl
  | cons c cs ih =>
    rw [sizeAll_cons] at hlen ⊢
    have ha' := ha c rfl
    -- The first child yields its positions from the border on, the others yield all of theirs.
    have hchild := hrec (hcs c (List.mem_cons_self ..)) (o := o) (by omega) ha'
    have hrest := ih (o := o + c.size + 1) (fun x hx => hcs x (List.mem_cons_of_mem _ hx))
      (by omega) (fun x _ => by omega)
    rw [starts, List.zip_cons_cons, List.flatMap_cons, hrest]
    show fromIn q xs fuel o c ++ [o + c.size] ++ _ = _
    rw [hchild, ← drop_range_succ (by omega), show max (o + c.size + 1) a = o + c.size + 1 by omega,
      drop_range_append (by omega)]
    congr 2
    omega

/-- The positions of a node from the first border on. -/
theorem fromIn_eq (h : q.Splits xs a b) (fuel : Nat) {o : Nat} {s : Shape} (hs : Grouped s)
    (hlen : o + s.size ≤ xs.length) (ha : a ≤ o + s.size) :
    fromIn q xs fuel o s = (List.range (o + s.size)).drop (max o a) := by
  have hleaf : ∀ {o n : Nat}, o + n ≤ xs.length → a ≤ o + n →
      (List.range (o + n)).drop (q.findWithin xs o n).start = (List.range (o + n)).drop
      (max o a) := by
    intro o n hlen ha
    rw [h.start_findWithin hlen]
    congr 1
    omega
  induction fuel generalizing o s with
  | zero =>
    simp only [fromIn]
    exact hleaf hlen ha
  | succ fuel ih =>
    cases hs with
    | leaf n =>
      simp only [fromIn]
      exact hleaf hlen ha
    | @inner cs hne hcs =>
      have hpos := sizeAll_pos hne
      rw [size_inner] at hlen ha ⊢
      have hseps : ∀ p ∈ separators o cs, o ≤ p ∧ p < xs.length := by
        intro p hp
        have hp' := mem_separators hp
        omega
      have hstart := (h.elementsAt (pairwise_separators o cs) fun p hp => (hseps p hp).2).start_find
      -- The elements between the children are all in the node, so only the part of the border in it
      -- counts.
      have hcount : (separators o cs).countP (· < a) = (separators o cs).countP (· < max o a) := by
        refine List.countP_congr fun p hp => ?_
        have hp' := (hseps p hp).1
        simp only [decide_eq_true_eq]
        omega
      obtain ⟨c, hc, hlow, hhigh⟩ := child_of_place hne (o := o) (m := max o a) (by omega)
        (by omega)
      rw [← hcount] at hc hlow hhigh
      have hend := offset_add_size_lt o hc
      simp only [fromIn, hstart]
      generalize (separators o cs).countP (· < a) = k at hc hlow hhigh hend
      have hsum : offset o cs k + sizeAll (cs.drop k) = o + sizeAll cs := by
        rw [offset, Nat.add_assoc, ← sizeAll_append, List.take_append_drop]
      have hge : o ≤ offset o cs k := Nat.le_add_right _ _
      have hparts : (cs.zip (starts o cs)).drop k =
          (cs.drop k).zip (starts (offset o cs k) (cs.drop k)) := by
        rw [← drop_starts]
        exact List.drop_zipWith
      rw [hparts, flatMap_fromIn ih (fun x hx => hcs x (List.mem_of_mem_drop hx)) (by omega)
        (fun x hx => ?_), hsum]
      -- After the last child there is no separator: what was added for it is dropped again.
      · obtain ⟨n, hn⟩ : ∃ n, o + sizeAll cs = n + 1 := ⟨o + sizeAll cs - 1, by omega⟩
        have hmax : max (offset o cs k) a = max o a := by omega
        rw [hmax, hn, drop_range_succ (by omega), List.dropLast_concat]
        congr 2
        omega
      · rw [List.head?_drop, hc] at hx
        obtain rfl := Option.some.inj hx
        omega

/-- A walk from the one searched for on has all positions from the first border on. -/
theorem startingAt_eq (h : q.Splits xs a b) {s : Shape} (hs : Grouped s)
    (hlen : s.size = xs.length) : startingAt q xs s = (List.range xs.length).drop a := by
  have hb := h.le_length
  have hle := h.le
  unfold startingAt
  rw [fromIn_eq h s.height hs (by omega) (by omega), Nat.zero_add, hlen, Nat.zero_max]

end Allotment.Shape
