import Allotment.Proofs.Pool.Search

namespace Allotment.Shape

/-!
# Sizes of shapes

A node of a shape stands for a stretch of the elements of a list; between the stretches of its
children there is one element each.  Nodes are parted, joined and filled up from their neighbours
without a change of the size.

* `Grouped` — shapes in which every inner node has a child;
* `offset` — where the stretch of a child starts;
* `child_of_place` — a place among the separators is a place at the child between them;
* `halves_spec`, `join_spec`, `moveRight_spec`, `moveLeft_spec`, `grow_spec` — the sizes after a
  change of nodes.
-/

universe u

/-! ### Sizes -/

/-- Every inner node has a child. -/
inductive Grouped : Shape → Prop where
  | leaf (n : Nat) : Grouped (.leaf n)
  | inner {cs : List Shape} (nonempty : cs ≠ []) (children : ∀ c ∈ cs, Grouped c) :
      Grouped (.inner cs)

@[simp] theorem size_leaf (n : Nat) : (leaf n).size = n := by
  rw [size]

@[simp] theorem size_inner (cs : List Shape) : (inner cs).size = sizeAll cs - 1 := by
  rw [size]

@[simp] theorem sizeAll_nil : sizeAll [] = 0 := by
  rw [sizeAll]

@[simp] theorem sizeAll_cons (c : Shape) (cs : List Shape) :
    sizeAll (c :: cs) = c.size + 1 + sizeAll cs := by
  rw [sizeAll]

@[simp] theorem sizeAll_append (cs ds : List Shape) :
    sizeAll (cs ++ ds) = sizeAll cs + sizeAll ds := by
  induction cs with
  | nil => simp
  | cons c cs ih =>
    rw [List.cons_append, sizeAll_cons, sizeAll_cons, ih]
    omega

/-- Each child counts for at least one element. -/
theorem length_le_sizeAll (cs : List Shape) : cs.length ≤ sizeAll cs := by
  induction cs with
  | nil => simp
  | cons c cs ih =>
    rw [List.length_cons, sizeAll_cons]
    omega

/-- Children count for something, since each has an element after it. -/
theorem sizeAll_pos {cs : List Shape} (h : cs ≠ []) : 0 < sizeAll cs := by
  have hlen := length_le_sizeAll cs
  have hpos := List.length_pos_iff.mpr h
  omega

/-- The elements of a node itself are among its elements. -/
theorem count_le_size (s : Shape) : s.count ≤ s.size := by
  cases s with
  | leaf n => simp [count]
  | inner cs =>
    have hlen := length_le_sizeAll cs
    simp only [count, size_inner]
    omega

/-- Putting another child in the place of one changes the size by what they differ in. -/
theorem sizeAll_set {cs : List Shape} {k : Nat} {c : Shape} (hc : cs[k]? = some c) (d : Shape) :
    sizeAll (cs.set k d) + c.size = sizeAll cs + d.size := by
  induction cs generalizing k with
  | nil => simp at hc
  | cons x cs ih =>
    cases k with
    | zero =>
      obtain rfl : x = c := by simpa using hc
      rw [List.set_cons_zero, sizeAll_cons, sizeAll_cons]
      omega
    | succ k =>
      have ih' := ih (k := k) (by simpa using hc)
      rw [List.set_cons_succ, sizeAll_cons, sizeAll_cons]
      omega

/-- Putting a grouped child in the place of one keeps all of them grouped. -/
theorem grouped_set {cs : List Shape} (hcs : ∀ c ∈ cs, Grouped c) {d : Shape} (hd : Grouped d)
    (k : Nat) : ∀ c ∈ cs.set k d, Grouped c := by
  intro c hc
  rcases List.mem_or_eq_of_mem_set hc with hc | rfl
  · exact hcs c hc
  · exact hd

/-! ### Where the children start -/

/-- The number of elements before the child after `k` others, when `o` are before the first one. -/
def offset (o : Nat) (cs : List Shape) (k : Nat) : Nat :=
  o + sizeAll (cs.take k)

/-- Behind the first child, the others start as they would without it. -/
theorem offset_cons (o : Nat) (c : Shape) (cs : List Shape) (k : Nat) :
    offset o (c :: cs) (k + 1) = offset (o + c.size + 1) cs k := by
  rw [offset, offset, List.take_succ_cons, sizeAll_cons]
  omega

/-- The next child starts after a child and the element that follows it. -/
theorem offset_succ (o : Nat) {cs : List Shape} {k : Nat} {c : Shape} (hc : cs[k]? = some c) :
    offset o cs (k + 1) = offset o cs k + c.size + 1 := by
  have htake : cs.take (k + 1) = cs.take k ++ [c] := by
    rw [List.take_add_one, hc, Option.toList_some]
  rw [offset, offset, htake, sizeAll_append, sizeAll_cons, sizeAll_nil]
  omega

/-- A child ends where the node ends, or earlier. -/
theorem offset_add_size_lt (o : Nat) {cs : List Shape} {k : Nat} {c : Shape}
    (hc : cs[k]? = some c) : offset o cs k + c.size < o + sizeAll cs := by
  have hsplit : sizeAll (cs.take (k + 1)) + sizeAll (cs.drop (k + 1)) = sizeAll cs := by
    rw [← sizeAll_append, List.take_append_drop]
  have hsucc := offset_succ o hc
  rw [offset] at hsucc
  omega

/-- The list of starts has the start of each child. -/
theorem getD_starts (o : Nat) {cs : List Shape} {k : Nat} (hk : k < cs.length) (e : Nat) :
    (starts o cs).getD k e = offset o cs k := by
  induction cs generalizing o k with
  | nil => simp at hk
  | cons c cs ih =>
    cases k with
    | zero => simp [starts, offset]
    | succ k =>
      rw [starts, List.getD_cons_succ, ih _ (by simpa using hk), offset_cons]

@[simp] theorem separators_singleton (o : Nat) (c : Shape) : separators o [c] = [] := by
  simp [separators, starts]

@[simp] theorem separators_cons_cons (o : Nat) (c d : Shape) (cs : List Shape) :
    separators o (c :: d :: cs) = (o + c.size) :: separators (o + c.size + 1) (d :: cs) := by
  simp [separators, starts]

/-- An element between two children lies between the ends of the node. -/
theorem mem_separators {o p : Nat} {cs : List Shape} (hp : p ∈ separators o cs) :
    o ≤ p ∧ p + 1 < o + sizeAll cs := by
  induction cs generalizing o with
  | nil => simp [separators, starts] at hp
  | cons c cs ih =>
    cases cs with
    | nil => simp at hp
    | cons d cs =>
      rw [separators_cons_cons, List.mem_cons] at hp
      rw [sizeAll_cons]
      rcases hp with rfl | hp
      · have hpos := sizeAll_pos (List.cons_ne_nil d cs)
        omega
      · have hp' := ih hp
        omega

/-- The elements between the children stand in their order. -/
theorem pairwise_separators (o : Nat) (cs : List Shape) : (separators o cs).Pairwise (· < ·) := by
  induction cs generalizing o with
  | nil => simp [separators, starts]
  | cons c cs ih =>
    cases cs with
    | nil => simp
    | cons d cs =>
      rw [separators_cons_cons]
      refine List.pairwise_cons.mpr ⟨?_, ih _⟩
      intro p hp
      have hp' := (mem_separators hp).1
      omega

/-- Each child but the last is followed by an element. -/
theorem getElem?_separators (o : Nat) {cs : List Shape} {k : Nat} {c : Shape} (hc : cs[k]? = some c)
    (hk : k + 1 < cs.length) : (separators o cs)[k]? = some (offset o cs k + c.size) := by
  induction cs generalizing o k with
  | nil => simp at hk
  | cons x cs ih =>
    cases cs with
    | nil => simp at hk
    | cons d cs =>
      rw [separators_cons_cons]
      cases k with
      | zero =>
        obtain rfl : x = c := by simpa using hc
        simp [offset]
      | succ k =>
        rw [List.getElem?_cons_succ, ih _ (by simpa using hc) (by simpa using hk), offset_cons]

/-- The elements between the children that come before a place tell the child in which the place
    is. -/
theorem child_of_place {o m : Nat} {cs : List Shape} (hcs : cs ≠ []) (ho : o ≤ m)
    (hm : m < o + sizeAll cs) :
    ∃ c, cs[(separators o cs).countP (· < m)]? = some c ∧
      offset o cs ((separators o cs).countP (· < m)) ≤ m ∧
      m ≤ offset o cs ((separators o cs).countP (· < m)) + c.size := by
  induction cs generalizing o with
  | nil => exact absurd rfl hcs
  | cons c cs ih =>
    cases cs with
    | nil =>
      simp only [sizeAll_cons, sizeAll_nil] at hm
      refine ⟨c, by simp, ?_, ?_⟩
      · simpa [offset] using ho
      · simp only [separators_singleton, List.countP_nil, offset, List.take_zero, sizeAll_nil]
        omega
    | cons d cs =>
      rw [separators_cons_cons, List.countP_cons]
      by_cases hlt : o + c.size < m
      · rw [sizeAll_cons] at hm
        obtain ⟨x, hx, hlow, hhigh⟩ := ih (List.cons_ne_nil d cs) (o := o + c.size + 1) hlt
          (by omega)
        simp only [hlt, decide_true, if_true, offset_cons]
        exact ⟨x, by simpa using hx, hlow, hhigh⟩
      · -- No later separator can come before the place.
        have hzero : (separators (o + c.size + 1) (d :: cs)).countP (· < m) = 0 := by
          rw [List.countP_eq_zero]
          intro p hp
          have hp' := (mem_separators hp).1
          simp only [decide_eq_true_eq]
          omega
        simp only [hzero, hlt, decide_false, Bool.false_eq_true, if_false]
        refine ⟨c, by simp, ?_, ?_⟩
        · simpa [offset] using ho
        · simp only [offset]
          omega

/-! ### Parting and joining nodes -/

theorem grouped_pair {c d : Shape} (hc : Grouped c) (hd : Grouped d) : ∀ x ∈ [c, d], Grouped x := by
  simp only [List.forall_mem_cons]
  exact ⟨hc, hd, by simp⟩

/-- The halves of a full node and the element between them make up the node. -/
theorem halves_spec {s : Shape} (hs : Grouped s) (hfull : maxCount ≤ s.count) :
    s.halves.1.size + 1 + s.halves.2.size = s.size ∧ Grouped s.halves.1 ∧ Grouped s.halves.2 := by
  cases hs with
  | leaf n =>
    simp only [count, maxCount] at hfull
    refine ⟨?_, .leaf _, .leaf _⟩
    simp only [halves, minCount, size_leaf]
    omega
  | @inner cs hne hcs =>
    simp only [count, maxCount] at hfull
    -- A full node has children enough for both halves.
    have htake : cs.take (minCount + 1) ≠ [] := by
      rw [← List.length_pos_iff, List.length_take, minCount]
      omega
    have hdrop : cs.drop (minCount + 1) ≠ [] := by
      rw [← List.length_pos_iff, List.length_drop, minCount]
      omega
    refine ⟨?_, .inner htake fun c hc => hcs c (List.mem_of_mem_take hc),
      .inner hdrop fun c hc => hcs c (List.mem_of_mem_drop hc)⟩
    -- The element after the last child of the first half is the one in the middle.
    have hsum : sizeAll (cs.take (minCount + 1)) + sizeAll (cs.drop (minCount + 1)) =
        sizeAll cs := by
      rw [← sizeAll_append, List.take_append_drop]
    have htake' := sizeAll_pos htake
    have hdrop' := sizeAll_pos hdrop
    simp only [halves, size_inner]
    omega

/-- A joined node holds the elements of both and the one between them. -/
theorem join_spec {c d : Shape} (hc : Grouped c) (hd : Grouped d) :
    (c.join d).size = c.size + 1 + d.size ∧ Grouped (c.join d) := by
  cases hc with
  | leaf m =>
    cases hd with
    | leaf n => exact ⟨by simp [join], .leaf _⟩
    | inner _ _ => exact ⟨by simp [join], .leaf _⟩
  | @inner cs hcs hcs' =>
    cases hd with
    | leaf n => exact ⟨by simp [join], .leaf _⟩
    | @inner ds hds hds' =>
      -- The element between the nodes is the one after the last child of the first.
      have hpos := sizeAll_pos hcs
      have hpos' := sizeAll_pos hds
      refine ⟨?_, .inner (by simp [hcs]) ?_⟩
      · simp only [join, size_inner, sizeAll_append]
        omega
      · intro x hx
        rcases List.mem_append.mp hx with hx | hx
        · exact hcs' x hx
        · exact hds' x hx

/-- A list that ends in `l` is what comes before `l`, and `l`. -/
theorem sizeAll_dropLast {cs : List Shape} {l : Shape} (hl : cs.getLast? = some l) :
    sizeAll cs = sizeAll cs.dropLast + l.size + 1 := by
  obtain ⟨init, rfl⟩ := List.getLast?_eq_some_iff.mp hl
  simp only [sizeAll_append, sizeAll_cons, sizeAll_nil, List.dropLast_concat]
  omega

/-- Moving an element to the right neighbour changes neither the number of elements nor that every
    inner node has a child. -/
theorem moveRight_spec {c d : Shape} (hc : Grouped c) (hd : Grouped d)
    (hspare : minCount < c.count) :
    sizeAll (moveRight c d) = sizeAll [c, d] ∧ ∀ x ∈ moveRight c d, Grouped x := by
  cases hc with
  | leaf m =>
    cases hd with
    | leaf n =>
      simp only [count, minCount] at hspare
      refine ⟨?_, grouped_pair (.leaf _) (.leaf _)⟩
      simp only [moveRight, sizeAll_cons, sizeAll_nil, size_leaf]
      omega
    | inner hds hds' => exact ⟨rfl, grouped_pair (.leaf _) (.inner hds hds')⟩
  | @inner cs hcs hcs' =>
    cases hd with
    | leaf n => exact ⟨rfl, grouped_pair (.inner hcs hcs') (.leaf _)⟩
    | @inner ds hds hds' =>
      simp only [count, minCount] at hspare
      -- The node that gives a child away keeps one: it has more than `minCount` of them.
      obtain ⟨l, hl⟩ : ∃ l, cs.getLast? = some l := ⟨_, List.getLast?_eq_some_getLast hcs⟩
      have hinit : cs.dropLast ≠ [] := by
        rw [← List.length_pos_iff, List.length_dropLast]
        omega
      have hsum := sizeAll_dropLast hl
      have hpos := sizeAll_pos hinit
      have hpos' := sizeAll_pos hds
      refine ⟨?_, ?_⟩
      · simp only [moveRight, hl, Option.toList_some, sizeAll_cons, sizeAll_nil, size_inner,
          sizeAll_append]
        omega
      · simp only [moveRight, hl, Option.toList_some]
        refine grouped_pair (.inner hinit fun x hx => hcs' x (List.dropLast_subset _ hx))
          (.inner (by simp) ?_)
        intro x hx
        rcases List.mem_append.mp hx with hx | hx
        · rw [List.mem_singleton] at hx
          exact hcs' x (hx ▸ List.mem_of_getLast? hl)
        · exact hds' x hx

/-- The same for moving an element to the left neighbour. -/
theorem moveLeft_spec {c d : Shape} (hc : Grouped c) (hd : Grouped d)
    (hspare : minCount < d.count) :
    sizeAll (moveLeft c d) = sizeAll [c, d] ∧ ∀ x ∈ moveLeft c d, Grouped x := by
  cases hc with
  | leaf m =>
    cases hd with
    | leaf n =>
      simp only [count, minCount] at hspare
      refine ⟨?_, grouped_pair (.leaf _) (.leaf _)⟩
      simp only [moveLeft, sizeAll_cons, sizeAll_nil, size_leaf]
      omega
    | inner hds hds' => exact ⟨rfl, grouped_pair (.leaf _) (.inner hds hds')⟩
  | @inner cs hcs hcs' =>
    cases hd with
    | leaf n => exact ⟨rfl, grouped_pair (.inner hcs hcs') (.leaf _)⟩
    | @inner ds hds hds' =>
      simp only [count, minCount] at hspare
      cases ds with
      | nil => exact absurd rfl hds
      | cons f rest =>
        -- A node that can spare a child keeps at least one.
        have hrest : rest ≠ [] := by
          rw [← List.length_pos_iff]
          rw [List.length_cons] at hspare
          omega
        have hpos := sizeAll_pos hcs
        have hpos' := sizeAll_pos hrest
        refine ⟨?_, ?_⟩
        · simp only [moveLeft, List.head?_cons, Option.toList_some, List.tail_cons, sizeAll_cons,
            sizeAll_nil, size_inner, sizeAll_append]
          omega
        · simp only [moveLeft, List.head?_cons, Option.toList_some, List.tail_cons]
          refine grouped_pair (.inner (by simp) ?_)
            (.inner hrest fun x hx => hds' x (List.mem_cons_of_mem _ hx))
          intro x hx
          rcases List.mem_append.mp hx with hx | hx
          · exact hcs' x hx
          · rw [List.mem_singleton] at hx
            exact hds' x (hx ▸ List.mem_cons_self ..)

/-- A child can spare an element if it has more than the least number. -/
theorem canSpare_iff (k : Nat) (cs : List Shape) :
    canSpare k cs ↔ ∃ c, cs[k]? = some c ∧ minCount < c.count := by
  simp [canSpare, Option.any_eq_true]

/-- A change of two neighbours that keeps their size keeps that of the node. -/
theorem changePair_spec {change : Shape → Shape → List Shape} {k : Nat} {cs : List Shape}
    (hcs : ∀ c ∈ cs, Grouped c)
    (hchange : ∀ c d, cs[k]? = some c → cs[k + 1]? = some d →
      sizeAll (change c d) = sizeAll [c, d] ∧ ∀ x ∈ change c d, Grouped x) :
    sizeAll (changePair change k cs) = sizeAll cs ∧ ∀ x ∈ changePair change k cs, Grouped x := by
  unfold changePair
  split
  · rename_i c d rest hdrop
    -- The row has both neighbours in the places from `k` on.
    have hc : cs[k]? = some c := by
      rw [← List.head?_drop, hdrop, List.head?_cons]
    have hd : cs[k + 1]? = some d := by
      rw [← List.head?_drop, ← List.tail_drop, hdrop, List.tail_cons, List.head?_cons]
    obtain ⟨hsize, hgrouped⟩ := hchange c d hc hd
    -- The children before and after the two are left as they were.
    have hsplit : sizeAll cs = sizeAll (cs.take k) + sizeAll (c :: d :: rest) := by
      rw [← hdrop, ← sizeAll_append, List.take_append_drop]
    refine ⟨?_, ?_⟩
    · rw [hsplit, sizeAll_append, sizeAll_append, hsize]
      simp only [sizeAll_cons, sizeAll_nil]
      omega
    · intro x hx
      rcases List.mem_append.mp hx with hx | hx
      · rcases List.mem_append.mp hx with hx | hx
        · exact hcs x (List.mem_of_mem_take hx)
        · exact hgrouped x hx
      · have hx' : x ∈ cs.drop k := by
          rw [hdrop]
          exact List.mem_cons_of_mem _ (List.mem_cons_of_mem _ hx)
        exact hcs x (List.mem_of_mem_drop hx')
  · exact ⟨rfl, hcs⟩

/-- Letting a child grow moves elements around within the node. -/
theorem grow_spec (k : Nat) {cs : List Shape} (hcs : ∀ c ∈ cs, Grouped c) :
    sizeAll (grow k cs) = sizeAll cs ∧ ∀ x ∈ grow k cs, Grouped x := by
  have hmem : ∀ {i : Nat} {c : Shape}, cs[i]? = some c → Grouped c :=
    fun hc => hcs _ (List.mem_of_getElem? hc)
  unfold grow
  split
  · -- The node before can spare an element.
    rename_i hleft
    simp only [Bool.and_eq_true, canSpare_iff] at hleft
    obtain ⟨-, e, he, hspare⟩ := hleft
    refine changePair_spec hcs fun c d hc hd => ?_
    obtain rfl : e = c := Option.some.inj (he.symm.trans hc)
    exact moveRight_spec (hmem hc) (hmem hd) hspare
  · split
    · -- The node after can spare one.
      rename_i hright
      obtain ⟨e, he, hspare⟩ := (canSpare_iff _ _).mp hright
      refine changePair_spec hcs fun c d hc hd => ?_
      obtain rfl : e = d := Option.some.inj (he.symm.trans hd)
      exact moveLeft_spec (hmem hc) (hmem hd) hspare
    · -- Neither can, so the node is joined with one of them.
      refine changePair_spec hcs fun c d hc hd => ?_
      obtain ⟨hsize, hgrouped⟩ := join_spec (hmem hc) (hmem hd)
      refine ⟨?_, by simpa using hgrouped⟩
      simp only [sizeAll_cons, sizeAll_nil, hsize]
      omega

/-- A node stays grouped when one of its children is given more elements. -/
theorem grouped_grow (k : Nat) {cs : List Shape} (hne : cs ≠ []) (hcs : ∀ c ∈ cs, Grouped c) :
    Grouped (.inner (grow k cs)) := by
  obtain ⟨hsize, hgrouped⟩ := grow_spec k hcs
  refine .inner ?_ hgrouped
  intro hnil
  have hpos := sizeAll_pos hne
  rw [hnil, sizeAll_nil] at hsize
  omega

/-- A full child is parted into its halves, and any other is left as it is. -/
theorem splitChild_eq {k : Nat} {cs : List Shape} {c : Shape} (hc : cs[k]? = some c) :
    splitChild k cs =
      if maxCount ≤ c.count then cs.take k ++ [c.halves.1, c.halves.2] ++ cs.drop (k + 1)
      else cs := by
  have hlt : k < cs.length := (List.getElem?_eq_some_iff.mp hc).1
  have hget : cs[k] = c := (List.getElem?_eq_some_iff.mp hc).2
  unfold splitChild
  rw [List.drop_eq_getElem_cons hlt, hget]

/-- A node in which the child `c` was parted into `x` and `y`. -/
theorem parted_spec {k : Nat} {cs : List Shape} {c x y : Shape} (hc : cs[k]? = some c)
    (hsize : x.size + 1 + y.size = c.size) :
    ∃ ds, cs.take k ++ [x, y] ++ cs.drop (k + 1) = ds ∧ ds.length = cs.length + 1 ∧
      ds[k]? = some x ∧ ds[k + 1]? = some y ∧ ds.take k = cs.take k ∧ sizeAll ds = sizeAll cs ∧
      ∀ z ∈ ds, z ∈ cs ∨ z = x ∨ z = y := by
  have hlt : k < cs.length := (List.getElem?_eq_some_iff.mp hc).1
  have hget : cs[k] = c := (List.getElem?_eq_some_iff.mp hc).2
  have htake : (cs.take k).length = k := by
    rw [List.length_take]
    omega
  refine ⟨_, rfl, ?_, ?_, ?_, ?_, ?_, ?_⟩
  · simp only [List.length_append, List.length_cons, List.length_nil, List.length_drop, htake]
    omega
  · simp [htake]
  · simp [htake]
  · rw [List.append_assoc, List.take_left' htake]
  · -- The parts and the element between them count as much as the child did.
    have hsplit : sizeAll cs = sizeAll (cs.take k) + sizeAll (c :: cs.drop (k + 1)) := by
      rw [← hget, ← List.drop_eq_getElem_cons hlt, ← sizeAll_append, List.take_append_drop]
    rw [hsplit]
    simp only [sizeAll_append, sizeAll_cons, sizeAll_nil]
    omega
  · intro z hz
    simp only [List.mem_append, List.mem_cons, List.not_mem_nil, or_false] at hz
    rcases hz with (hz | hz) | hz
    · exact Or.inl (List.mem_of_mem_take hz)
    · exact Or.inr hz
    · exact Or.inl (List.mem_of_mem_drop hz)

end Allotment.Shape
