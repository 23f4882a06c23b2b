import Allotment.Proofs.Pool.Shape

namespace Allotment.Shape

/-!
# Elements put in and taken out along a shape

Whatever the shape that groups the elements of a list is, putting an element in and taking one out
find the borders of `Probe.Splits` in a list that is in the order of the probe, and the shape
afterwards has the size of the list afterwards.

* `find_separators` — one level of the search;
* `Inserted`, `inserted_insert` — the place that is found for an element, and the shape after it is
  put in;
* `Removed`, `removed_remove` — the place of the element that is taken out, and the shape after
  that.
-/

universe u

variable {β : Type u} {q : Probe β} {xs : List β} {a b : Nat}

/-! ### Putting an element in -/

/-- A search among the elements between the children ends at the element that is looked for, or it
    leads to the child around the borders. -/
theorem find_separators (h : q.Splits xs a b) {o : Nat} {cs : List Shape} (hcs : cs ≠ [])
    (ho : o ≤ a) (hb : b < o + sizeAll cs) (hlen : o + sizeAll cs ≤ xs.length + 1) :
    ∃ k c, cs[k]? = some c ∧ offset o cs k ≤ a ∧ a ≤ offset o cs k + c.size ∧
      (q.find (elementsAt xs (separators o cs)) = .between k ∧ b ≤ offset o cs k + c.size ∨
        q.find (elementsAt xs (separators o cs)) = .taken k ∧ (separators o cs)[k]? = some a ∧
          b = a + 1) := by
  have hle := h.le
  have hsucc := h.le_succ
  have hseps := h.elementsAt (pairwise_separators o cs) fun p hp => by
    have hp' := mem_separators hp
    omega
  -- The number of separators before a border is the number of the child in which the border is.
  obtain ⟨c, hc, hlow, hhigh⟩ := child_of_place hcs ho (show a < o + sizeAll cs by omega)
  refine ⟨_, c, hc, hlow, hhigh, ?_⟩
  rw [hseps.find_eq, Spot.ofBorders]
  by_cases hab : (separators o cs).countP (· < a) = (separators o cs).countP (· < b)
  · rw [if_pos hab]
    obtain ⟨d, hd, -, hhigh'⟩ := child_of_place hcs (show o ≤ b by omega) hb
    rw [← hab] at hd hhigh'
    obtain rfl : c = d := Option.some.inj (hc.symm.trans hd)
    exact Or.inl ⟨rfl, hhigh'⟩
  · rw [if_neg hab]
    have hcount := hseps.le
    have hk : (separators o cs).countP (· < a) < (separators o cs).length := by
      have hbound : (separators o cs).countP (· < b) ≤ (separators o cs).length :=
        List.countP_le_length
      omega
    have hget := List.getElem?_eq_getElem hk
    -- The first separator that is not before `a` is before `b`, so it is the element at `a`.
    have hnotBelow := Probe.Splits.lt_countP_iff (pairwise_separators o cs) a hget
    have hbelow := Probe.Splits.lt_countP_iff (pairwise_separators o cs) b hget
    refine Or.inr ⟨rfl, ?_, by omega⟩
    rw [hget]
    congr 1
    omega

/-- What putting an element in gives: the place between the borders, and a shape for one element
    more, unless there is an element at that place already. -/
structure Inserted (a b : Nat) (s : Shape) (r : Spot × Shape) : Prop where
  spot : r.1 = .ofBorders a b
  size : r.2.size + (b - a) = s.size + 1
  grouped : Grouped r.2

/-- An element put into a leaf. -/
theorem inserted_insertInLeaf (h : q.Splits xs a b) {o : Nat} {s : Shape} (ho : o ≤ a)
    (hb : b ≤ o + s.size) (hlen : o + s.size ≤ xs.length) :
    Inserted a b s (insertInLeaf q xs o s) := by
  have hle := h.le
  have hsucc := h.le_succ
  unfold insertInLeaf
  rw [h.findWithin_eq hlen ho hb, Spot.ofBorders]
  by_cases hab : a = b
  · rw [if_pos hab]
    refine ⟨by rw [Spot.ofBorders, if_pos hab], ?_, .leaf _⟩
    simp only [size_leaf]
    omega
  · rw [if_neg hab]
    refine ⟨by rw [Spot.ofBorders, if_neg hab], ?_, .leaf _⟩
    simp only [size_leaf]
    omega

/-- An element that is put into a child is put into the node. -/
theorem Inserted.set {cs : List Shape} {k : Nat} {c : Shape} {r : Spot × Shape}
    (hr : Inserted a b c r) (hc : cs[k]? = some c) (hcs : ∀ x ∈ cs, Grouped x) (hsucc : b ≤ a + 1) :
    Inserted a b (.inner cs) (r.1, .inner (cs.set k r.2)) := by
  have hlt : k < cs.length := (List.getElem?_eq_some_iff.mp hc).1
  have hlen := length_le_sizeAll cs
  have hset := sizeAll_set hc r.2
  have hsize := hr.size
  refine ⟨hr.spot, ?_, .inner ?_ (grouped_set hcs hr.grouped k)⟩
  · simp only [size_inner]
    omega
  · rw [← List.length_pos_iff, List.length_set]
    omega

/-- Parting a full child on the way leaves the borders at the element in the middle, or around one
    of the children after that. -/
theorem partOnWay_spec (h : q.Splits xs a b) {o k : Nat} {cs : List Shape} {c : Shape}
    (hc : cs[k]? = some c) (hcs : ∀ x ∈ cs, Grouped x) (hlow : offset o cs k ≤ a)
    (hhigh : b ≤ offset o cs k + c.size) (hlen : offset o cs k + c.size ≤ xs.length) :
    ∃ ds, sizeAll ds = sizeAll cs ∧ (∀ x ∈ ds, Grouped x) ∧
      (partOnWay q xs o k cs = (ds, .taken a) ∧ b = a + 1 ∨
        ∃ i d, partOnWay q xs o k cs = (ds, .between i) ∧ ds[i]? = some d ∧ offset o ds i ≤ a ∧
          b ≤ offset o ds i + d.size) := by
  have hgrouped := hcs c (List.mem_of_getElem? hc)
  have hlt : k < cs.length := (List.getElem?_eq_some_iff.mp hc).1
  unfold partOnWay
  rw [splitChild_eq hc]
  by_cases hfull : maxCount ≤ c.count
  · obtain ⟨hsize, hx, hy⟩ := halves_spec hgrouped hfull
    obtain ⟨ds, hds, hlength, hdx, hdy, htake, hsum, hmem⟩ := parted_spec hc hsize
    have hoffset : offset o ds k = offset o cs k := by rw [offset, offset, htake]
    have hoffset' := offset_succ o hdx
    have hmid : offset o ds k + c.halves.1.size < xs.length := by omega
    have hbefore := h.isBefore _ _ (List.getElem?_eq_getElem hmid)
    have hafter := h.isAfter _ _ (List.getElem?_eq_getElem hmid)
    refine ⟨ds, hsum, ?_, ?_⟩
    · intro z hz
      rcases hmem z hz with hz | rfl | rfl
      · exact hcs z hz
      · exact hx
      · exact hy
    simp only [if_pos hfull, hds, hlength, Nat.lt_succ_self, decide_true, Bool.true_and,
      List.getD_eq_getElem?_getD, getElem?_separators o hdx (show k + 1 < ds.length by omega),
      Option.getD_some, List.getElem?_eq_getElem hmid, Option.all_some]
    by_cases hb' : q.isBefore xs[offset o ds k + c.halves.1.size]
    · -- The borders are before the middle.
      have hb'' := hbefore.mp hb'
      right
      refine ⟨k, _, ?_, hdx, by omega, hb''⟩
      simp [hb']
    · have hb'' := mt hbefore.mpr hb'
      by_cases ha' : q.isAfter xs[offset o ds k + c.halves.1.size]
      · -- The borders are past the middle.
        have ha'' := hafter.mp ha'
        right
        refine ⟨k + 1, _, ?_, hdy, by omega, by omega⟩
        simp [hb', ha']
      · have ha'' := mt hafter.mpr ha'
        have hsucc := h.le_succ
        left
        refine ⟨?_, by omega⟩
        simp only [hb', ha', Bool.not_false, Bool.and_true, if_true]
        congr 2
        omega
  · refine ⟨cs, rfl, hcs, Or.inr ⟨k, c, ?_, hc, hlow, hhigh⟩⟩
    simp [if_neg hfull]

/-- The place of an element to put in is found at any height, whatever the fuel is. -/
theorem inserted_insertIn (h : q.Splits xs a b) (fuel : Nat) {o : Nat} {s : Shape} (hs : Grouped s)
    (ho : o ≤ a) (hb : b ≤ o + s.size) (hlen : o + s.size ≤ xs.length) :
    Inserted a b s (insertIn q xs fuel o s) := by
  -- At each level `o` elements come before the subtree, and the borders stay within its window.
  induction fuel generalizing o s with
  | zero =>
    simp only [insertIn]
    exact inserted_insertInLeaf h ho hb hlen
  | succ fuel ih =>
    cases hs with
    | leaf n =>
      simp only [insertIn]
      exact inserted_insertInLeaf h ho hb hlen
    | @inner cs hne hcs =>
      have hpos := sizeAll_pos hne
      rw [size_inner] at hb hlen
      obtain ⟨k, c, hc, hlow, -, ⟨hfind, hhigh⟩ | ⟨hfind, hget, rfl⟩⟩ :=
        find_separators h hne ho (by omega) (by omega)
      · have hend := offset_add_size_lt o hc
        obtain ⟨ds, hsum, hds, ⟨hpart, rfl⟩ | ⟨i, d, hpart, hd, hlow', hhigh'⟩⟩ :=
          partOnWay_spec h hc hcs hlow hhigh (by omega)
        · simp only [insertIn, hfind, hpart]
          refine ⟨by simp [Spot.ofBorders], ?_, .inner ?_ hds⟩
          · simp only [size_inner, hsum]
            omega
          · rintro rfl
            rw [sizeAll_nil] at hsum
            omega
        · have hend' := offset_add_size_lt o hd
          have hrec := ih (hds d (List.mem_of_getElem? hd)) hlow' hhigh' (by omega)
          obtain ⟨hspot, hsize, hgrouped⟩ := hrec.set hd hds h.le_succ
          simp only [insertIn, hfind, hpart, hd, getD_starts o (List.getElem?_eq_some_iff.mp hd).1]
          refine ⟨hspot, ?_, hgrouped⟩
          simp only [size_inner, hsum] at hsize ⊢
          exact hsize
      · simp only [insertIn, hfind]
        refine ⟨?_, ?_, .inner hne hcs⟩
        · simp [hget, Spot.ofBorders]
        · simp only [size_inner]
          omega

/-- Putting an element in finds its place, and keeps the size of the shape true. -/
theorem inserted_insert (h : q.Splits xs a b) {s : Shape} (hs : Grouped s)
    (hlen : s.size = xs.length) : Inserted a b s (insert q xs s) := by
  have hb := h.le_length
  unfold insert
  by_cases hfull : maxCount ≤ s.count
  · -- A full root is parted first, and its halves get a new root above them.
    obtain ⟨hsize, hx, hy⟩ := halves_spec hs hfull
    have hroot : (inner [s.halves.1, s.halves.2]).size = s.size := by
      simp only [size_inner, sizeAll_cons, sizeAll_nil]
      omega
    have hgrouped : Grouped (inner [s.halves.1, s.halves.2]) := .inner (by simp)
      (grouped_pair hx hy)
    simp only [if_pos hfull]
    obtain ⟨hspot, hsize', hgrouped'⟩ := inserted_insertIn h
      (inner [s.halves.1, s.halves.2]).height hgrouped (Nat.zero_le a) (by omega) (by omega)
    exact ⟨hspot, hroot ▸ hsize', hgrouped'⟩
  · simp only [if_neg hfull]
    exact inserted_insertIn h s.height hs (Nat.zero_le a) (by omega) (by omega)

/-! ### Taking an element out -/

/-- The shape without its last element is smaller by one. -/
theorem dropLast_spec (fuel : Nat) {s : Shape} (hs : Grouped s) :
    (dropLast fuel s).size = s.size - 1 ∧ Grouped (dropLast fuel s) := by
  induction fuel generalizing s with
  | zero =>
    simp only [dropLast]
    exact ⟨size_leaf _, .leaf _⟩
  | succ fuel ih =>
    cases hs with
    | leaf n =>
      simp only [dropLast]
      exact ⟨by simp, .leaf _⟩
    | @inner cs hne hcs =>
      simp only [dropLast]
      by_cases hspare : canSpare (cs.length - 1) cs
      · -- The last child can spare its last element.
        rw [if_pos hspare]
        obtain ⟨l, hl, hcount⟩ := (canSpare_iff _ _).mp hspare
        rw [← List.getLast?_eq_getElem?] at hl
        have hgrouped := hcs l (List.mem_of_getLast? hl)
        obtain ⟨hsize, hgrouped'⟩ := ih hgrouped
        have hsum := sizeAll_dropLast hl
        have hbig := count_le_size l
        simp only [hl, Option.toList_some, List.map_cons, List.map_nil]
        refine ⟨?_, .inner (by simp) ?_⟩
        · simp only [size_inner, sizeAll_append, sizeAll_cons, sizeAll_nil, hsize]
          omega
        · intro x hx
          rcases List.mem_append.mp hx with hx | hx
          · exact hcs x (List.dropLast_subset _ hx)
          · rw [List.mem_singleton] at hx
            rw [hx]
            exact hgrouped'
      · -- The last child is given more elements first, and then the same node is tried again.
        rw [if_neg hspare]
        obtain ⟨hsize, hgrouped⟩ := ih (grouped_grow (cs.length - 1) hne hcs)
        refine ⟨?_, hgrouped⟩
        rw [hsize, size_inner, size_inner, (grow_spec _ hcs).1]

/-- What taking an element out gives: the place between the borders, and a shape for one element
    less, if there is an element at that place. -/
structure Removed (a b : Nat) (s : Shape) (r : Spot × Shape) : Prop where
  spot : r.1 = .ofBorders a b
  size : r.2.size + (b - a) = s.size
  grouped : Grouped r.2

/-- An element taken out of a leaf. -/
theorem removed_removeInLeaf (h : q.Splits xs a b) {o : Nat} {s : Shape} (ho : o ≤ a)
    (hb : b ≤ o + s.size) (hlen : o + s.size ≤ xs.length) :
    Removed a b s (removeInLeaf q xs o s) := by
  have hle := h.le
  have hsucc := h.le_succ
  unfold removeInLeaf
  rw [h.findWithin_eq hlen ho hb, Spot.ofBorders]
  by_cases hab : a = b
  · rw [if_pos hab]
    refine ⟨by rw [Spot.ofBorders, if_pos hab], ?_, .leaf _⟩
    simp only [size_leaf]
    omega
  · rw [if_neg hab]
    refine ⟨by rw [Spot.ofBorders, if_neg hab], ?_, .leaf _⟩
    simp only [size_leaf]
    omega

/-- An element that is taken out of a child is taken out of the node. -/
theorem Removed.set {cs : List Shape} {k : Nat} {c : Shape} {r : Spot × Shape}
    (hr : Removed a b c r) (hc : cs[k]? = some c) (hcs : ∀ x ∈ cs, Grouped x) :
    Removed a b (.inner cs) (r.1, .inner (cs.set k r.2)) := by
  have hne : cs.set k r.2 ≠ [] := by
    have hlt : k < cs.length := (List.getElem?_eq_some_iff.mp hc).1
    rw [← List.length_pos_iff, List.length_set]
    omega
  have hset := sizeAll_set hc r.2
  have hpos := sizeAll_pos hne
  have hsize := hr.size
  refine ⟨hr.spot, ?_, .inner hne (grouped_set hcs hr.grouped k)⟩
  simp only [size_inner]
  omega

/-- The place of an element to take out is found at any height, whatever the fuel is. -/
theorem removed_removeIn (h : q.Splits xs a b) (fuel : Nat) {o : Nat} {s : Shape} (hs : Grouped s)
    (ho : o ≤ a) (hb : b ≤ o + s.size) (hlen : o + s.size ≤ xs.length) :
    Removed a b s (removeIn q xs fuel o s) := by
  -- The same invariant as for `inserted_insertIn`; a child that grows changes neither of its parts.
  induction fuel generalizing o s with
  | zero =>
    simp only [removeIn]
    exact removed_removeInLeaf h ho hb hlen
  | succ fuel ih =>
    cases hs with
    | leaf n =>
      simp only [removeIn]
      exact removed_removeInLeaf h ho hb hlen
    | @inner cs hne hcs =>
      have hpos := sizeAll_pos hne
      have hinner := size_inner cs
      by_cases hspare : canSpare (q.find (elementsAt xs (separators o cs))).start cs
      · obtain ⟨k, c, hc, hlow, -, ⟨hfind, hhigh⟩ | ⟨hfind, hget, rfl⟩⟩ :=
          find_separators h hne ho (by omega) (by omega)
        · have hend := offset_add_size_lt o hc
          have hrec := ih (hcs c (List.mem_of_getElem? hc)) hlow hhigh (by omega)
          rw [hfind, Spot.start] at hspare
          simp only [removeIn, hfind, hspare, Spot.start, hc, Bool.not_true, Bool.false_eq_true,
            if_false, getD_starts o (List.getElem?_eq_some_iff.mp hc).1]
          exact hrec.set hc hcs
        · -- The element is between two children; the one before it comes in its place.
          rw [hfind, Spot.start] at hspare
          obtain ⟨d, hd, hcount⟩ := (canSpare_iff _ _).mp hspare
          obtain rfl : c = d := Option.some.inj (hc.symm.trans hd)
          have hbig := count_le_size c
          obtain ⟨hsize, hgrouped⟩ := dropLast_spec fuel (hcs c (List.mem_of_getElem? hc))
          have hrec : Removed a (a + 1) c (.taken a, c.dropLast fuel) :=
            ⟨by simp [Spot.ofBorders], by rw [hsize]; omega, hgrouped⟩
          simp only [removeIn, hfind, hspare, Spot.start, hc, Bool.not_true, Bool.false_eq_true,
            if_false, List.getD_eq_getElem?_getD, hget, Option.getD_some]
          exact hrec.set hc hcs
      · -- The child has to grow first, and the search starts again in the same node.
        have hsize := (grow_spec (q.find (elementsAt xs (separators o cs))).start hcs).1
        have hsize' : (inner (grow (q.find (elementsAt xs (separators o cs))).start cs)).size =
            (inner cs).size := by
          rw [size_inner, size_inner, hsize]
        have hrec := ih (grouped_grow (q.find (elementsAt xs (separators o cs))).start hne hcs) ho
          (by omega) (by omega)
        simp only [removeIn, hspare, Bool.not_false, if_true]
        exact ⟨hrec.spot, hsize' ▸ hrec.size, hrec.grouped⟩

/-- A root with a single child gives way to it, and no element is lost. -/
theorem trim_spec {s : Shape} (hs : Grouped s) : s.trim.size = s.size ∧ Grouped s.trim := by
  unfold trim
  split
  · rename_i c
    cases hs with
    | inner hne hcs =>
      refine ⟨?_, hcs c (List.mem_singleton_self c)⟩
      simp only [size_inner, sizeAll_cons, sizeAll_nil]
      omega
  · exact ⟨rfl, hs⟩

/-- Taking an element out finds its place, and keeps the size of the shape true. -/
theorem removed_remove (h : q.Splits xs a b) {s : Shape} (hs : Grouped s)
    (hlen : s.size = xs.length) : Removed a b s (remove q xs s) := by
  have hb := h.le_length
  obtain ⟨hspot, hsize, hgrouped⟩ :=
    removed_removeIn h (2 * (s.size + s.height + 1)) hs (Nat.zero_le a) (by omega) (by omega)
  obtain ⟨htrim, htrim'⟩ := trim_spec hgrouped
  exact ⟨hspot, htrim ▸ hsize, htrim'⟩

end Allotment.Shape
