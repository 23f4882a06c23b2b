import Allotment.Proofs.IntervalSet.Store

namespace Allotment

/-!
# Ranges that are crossed in the order of the set

A range is judged in its own order, and what it does to a set is decided in the order of the set.
So a range of another order may be valid although its ends stand the wrong way round for the set: it
is crossed, it ends before it starts.  The set takes it, and this is what happens:

* `IntervalSet.insert_of_crossed` — adding it drops the member that starts where it starts;
* `IntervalSet.erase_of_crossed` — removing it splits a member into two that overlap, shortens a
  member, or adds a second copy of the end of a member;
* `Store.run_apply_crossed` — a set that requests in one order made, and a range that is crossed for
  it.

The theorems about the normal form of sets ask for ranges that are read in the order of the set; the
last theorem of this module shows that they have to.
-/

universe u

variable {α : Type u} {cmp : α → α → Ordering}

/-- An interval with two endpoints is valid when they are in order. -/
theorem Interval.isValid_of_endpoints {r : Interval α} {a b : α} (ha : r.lower.endpoint? = some a)
    (hb : r.upper.endpoint? = some b) : r.isValid cmp = (cmp a b).isLE := by
  obtain ⟨lower, upper⟩ := r
  cases lower <;> cases upper <;> simp_all [isValid, Cut.endpoint?, Cut.isTop, Cut.isBottom]

/-- Cuts beside values that are in order are in that order. -/
theorem Cut.lt_of_endpoints [Std.TransCmp cmp] {c d : Cut α} {a b : α} (ha : c.endpoint? = some a)
    (hb : d.endpoint? = some b) (hgt : cmp a b = .gt) : Cut.lt cmp d c := by
  rw [← Cut.compare_eq_gt_iff]
  cases c <;> cases d <;> simp_all [Cut.endpoint?, Cut.compare, Ordering.then]

namespace IntervalSet

variable {s : IntervalSet α} {r : Interval α}

/-! ### Lists of members in order -/

/-- The order of the lower cuts leaves one list for the members that it holds. -/
theorem Increasing.ext [Std.TransCmp cmp] {ms ns : List (Interval α)} (hms : Increasing cmp ms)
    (hns : Increasing cmp ns) (h : ∀ x, x ∈ ms ↔ x ∈ ns) : ms = ns := by
  have hnodup : ∀ {l : List (Interval α)}, Increasing cmp l → l.Nodup := by
    intro l hl
    refine hl.imp ?_
    rintro a b hab rfl
    grind
  have hperm : ms.Perm ns := (List.perm_ext_iff_of_nodup (hnodup hms) (hnodup hns)).mpr h
  refine hperm.eq_of_pairwise ?_ hms hns
  intro a b _ _ hab hba
  grind

variable [Std.TransCmp s.cmp]

/-- Storing a member that is there already changes nothing. -/
theorem put_of_mem {ms : List (Interval α)} (h : Increasing s.cmp ms) (hr : r ∈ ms) :
    put s.cmp r ms = ms := by
  induction ms with
  | nil => cases hr
  | cons m ms ih =>
    obtain ⟨hhead, htail⟩ := List.pairwise_cons.mp h
    unfold put
    rcases List.mem_cons.mp hr with rfl | hr
    · rw [(Cut.compare_eq_eq_iff r.lower r.lower).mpr (by grind)]
    · rw [(Cut.compare_eq_gt_iff r.lower m.lower).mpr (hhead r hr)]
      exact congrArg (m :: ·) (ih htail hr)

/-- An interval that is not empty is stored. -/
theorem store_of_lt (hr : Cut.lt s.cmp r.lower r.upper) :
    s.store r = ⟨s.cmp, put s.cmp r s.members⟩ := by
  rw [store, if_neg]
  rw [Bool.not_eq_true, Interval.isEmpty_eq_false_iff]
  exact hr

/-- Storing an empty interval drops the member that starts with it. -/
theorem members_store_of_le (hr : Cut.le s.cmp r.upper r.lower) :
    (s.store r).members = s.members.filter fun m => !Cut.same s.cmp m.lower r.lower := by
  rw [store, if_pos]
  exact (Interval.isEmpty_iff r).mpr hr

/-- Nothing starts in a stretch that ends before it starts. -/
theorem members_dropBetween_of_le {l u : Cut α} (hlu : Cut.le s.cmp u l) :
    (s.dropBetween l u).members = s.members := by
  refine List.filter_eq_self.mpr ?_
  intro m _
  grind

/-! ### Inserting -/

/-- A crossed interval grows to a member that it stands in, or not at all to the left. -/
theorem extendLeft_of_crossed (hs : Normal s.cmp s.members) (hr : Cut.lt s.cmp r.upper r.lower) :
    (∃ m ∈ s.members, Cut.lt s.cmp m.lower r.lower ∧ Cut.le s.cmp r.lower m.upper ∧
      s.extendLeft r = m) ∨
      (∀ m ∈ s.members, Cut.lt s.cmp m.lower r.lower → Cut.lt s.cmp m.upper r.lower) ∧
      s.extendLeft r = r := by
  unfold extendLeft
  cases hbefore : s.before? r.lower with
  | none =>
    right
    refine ⟨?_, rfl⟩
    intro m hm hlt
    rw [before?_eq_none hbefore m hm] at hlt
    cases hlt
  | some m =>
    obtain ⟨hm, hlower, hlast⟩ := before?_eq_some hs hbefore
    have hne := hs.nonempty m hm
    by_cases hreach : Cut.le s.cmp r.lower m.upper
    · left
      -- The interval ends before it starts, hence before the member ends, and the member itself is
      -- left.
      have hend : Cut.le s.cmp r.upper m.upper := by grind
      exact ⟨m, hm, hlower, hreach, by simp only [hreach, hend, if_true]⟩
    · right
      refine ⟨?_, by simp only [hreach]; rfl⟩
      intro x hx hlt
      have hx' := hlast x hx hlt
      grind

/-- **Inserting a crossed interval drops the member that starts where it starts**, and nothing else
    happens. -/
theorem insert_of_crossed (hs : Normal s.cmp s.members) (hr : Cut.lt s.cmp r.upper r.lower) :
    (s.insert r).members = s.members.filter fun m => !Cut.same s.cmp m.lower r.lower := by
  unfold insert
  rcases extendLeft_of_crossed hs hr with ⟨m, hm, hlower, hreach, hleft⟩ | ⟨hfar, hleft⟩
  · -- The interval stands in the member `m`, which is dropped and stored again.
    have hne := hs.nonempty m hm
    have hright : s.extendRight m = m := by
      unfold extendRight
      rw [floor?_of_reaches hs hm (by grind) (Cut.le_refl _)]
      simp only [Cut.le_refl, if_true]
    rw [hleft, hright]
    refine Increasing.ext (increasing_store (s := s.dropBetween _ _)
      (increasing_dropBetween hs.increasing _ _) _) (hs.increasing.filter _) ?_
    intro x
    rw [mem_store (increasing_dropBetween hs.increasing _ _), mem_dropBetween, List.mem_filter]
    simp only [dropBetween_cmp]
    have hx : x ∈ s.members → x = m ∨ _ := fun hx => hs.eq_or_apart hx hm
    have hnx := hs.nonempty x
    grind
  · -- It stays crossed, also when it grows to the right: a member that it could grow by ends
    -- before it starts.
    have hright : (s.extendRight r).lower = r.lower ∧
        Cut.le s.cmp (s.extendRight r).upper r.lower := by
      unfold extendRight
      cases hfloor : s.floor? r.upper with
      | none => exact ⟨rfl, by grind⟩
      | some m =>
        obtain ⟨hm, hle, -⟩ := floor?_eq_some hs hfloor
        have hm' := hfar m hm (by grind)
        by_cases hend : Cut.le s.cmp r.upper m.upper
        · simp only [hend, if_true]
          exact ⟨trivial, by grind⟩
        · simp only [hend]
          exact ⟨rfl, by grind⟩
    rw [hleft, members_store_of_le (s := s.dropBetween _ _) (by rw [hright.1]; exact hright.2),
      members_dropBetween_of_le (by rw [hright.1]; exact hright.2), hright.1]
    rfl

/-! ### Erasing -/

/-- What is stored when a crossed interval is taken away.  A member that starts before the interval
    and reaches its start is cut at both ends of the interval, as if these stood the right way
    round: the two pieces overlap.  When the member starts where the interval ends, both pieces
    start there and only the shorter one stays.  When there is no such member, the end of a member
    that spans the end of the interval is stored once more. -/
def crossedPieces (s : IntervalSet α) (r : Interval α) : List (Interval α) :=
  match s.members.find? fun m => Cut.lt s.cmp m.lower r.lower && Cut.le s.cmp r.lower m.upper with
  | some m =>
    if Cut.same s.cmp m.lower r.upper then [⟨r.upper, r.lower⟩] else [⟨r.upper, m.upper⟩,
      ⟨m.lower, r.lower⟩]
  | none =>
    match s.members.find? fun m => Cut.le s.cmp m.lower r.upper && Cut.lt s.cmp r.upper m.upper with
    | some m => [⟨r.upper, m.upper⟩]
    | none => []

/-- In a list in order, a member that starts at a cut is the last one up to the cut. -/
theorem floor?_of_same (hs : Increasing s.cmp s.members) {c : Cut α} {m : Interval α}
    (hm : m ∈ s.members) (hsame : Cut.same s.cmp m.lower c) : s.floor? c = some m := by
  cases hfloor : s.floor? c with
  | none =>
    have hnone := floor?_eq_none hfloor m hm
    grind
  | some f =>
    obtain ⟨-, hf, hlast⟩ := getLast?_filter_eq_some hs hfloor
    rcases hlast m hm (by grind) with rfl | hlt
    · rfl
    · grind

/-- The member that the interval starts in is cut at both ends; the piece past the end is stored
    first. -/
theorem trimBefore_of_reaches (hs : Normal s.cmp s.members) (hr : Cut.lt s.cmp r.upper r.lower)
    (hbounded : r.upper.isBounded) {m : Interval α} (hm : m ∈ s.members)
    (hlower : Cut.lt s.cmp m.lower r.lower) (hreach : Cut.le s.cmp r.lower m.upper) :
    s.trimBefore r = ⟨s.cmp, put s.cmp ⟨m.lower, r.lower⟩
      (put s.cmp ⟨r.upper, m.upper⟩ s.members)⟩ := by
  have hpast : Cut.lt s.cmp r.upper m.upper := by grind
  have hkeep : s.keepAfter r m = ⟨s.cmp, put s.cmp ⟨r.upper, m.upper⟩ s.members⟩ := by
    rw [keepAfter, if_pos, store_of_lt]
    · exact hpast
    · rw [hbounded]
      grind
  unfold trimBefore
  simp only [before?_of_reaches hs hm hlower hreach, hreach, if_true]
  rw [hkeep, store_of_lt]
  exact hlower

/-- Where a member starts at the end of the interval, `trimAfter` stores the part of it that lies
    past the end. -/
theorem members_trimAfter_of_same {ms : List (Interval α)} (hms : Increasing s.cmp ms)
    (hbounded : r.upper.isBounded) {p : Interval α} (hp : p ∈ ms)
    (hsame : Cut.same s.cmp p.lower r.upper) (hend : Cut.lt s.cmp r.upper p.upper) :
    (trimAfter ⟨s.cmp, ms⟩ r).members = put s.cmp ⟨r.upper, p.upper⟩ ms := by
  rw [trimAfter, floor?_of_same (s := ⟨s.cmp, ms⟩) hms hp hsame]
  show (keepAfter ⟨s.cmp, ms⟩ r p).members = _
  rw [keepAfter, if_pos, store_of_lt]
  · exact hend
  · rw [hbounded]
    grind

/-- What is left of the members when one of them has the start of a crossed interval: the parts of
    this member on either side are stored, the later one first. -/
theorem members_trim_of_reaches (hs : Normal s.cmp s.members) (hr : Cut.lt s.cmp r.upper r.lower)
    (hbounded : r.upper.isBounded) {m : Interval α} (hm : m ∈ s.members)
    (hlower : Cut.lt s.cmp m.lower r.lower) (hreach : Cut.le s.cmp r.lower m.upper) :
    ((s.trimBefore r).trimAfter r).members =
      if Cut.same s.cmp m.lower r.upper then put s.cmp ⟨r.upper, r.lower⟩ s.members
      else put s.cmp ⟨m.lower, r.lower⟩ (put s.cmp ⟨r.upper, m.upper⟩ s.members) := by
  have hinc₁ := increasing_put hs.increasing ⟨r.upper, m.upper⟩
  have hinc₂ := increasing_put hinc₁ ⟨m.lower, r.lower⟩
  rw [trimBefore_of_reaches hs hr hbounded hm hlower hreach]
  by_cases hsame : Cut.same s.cmp m.lower r.upper
  · -- All three start at the same cut, and the last one stays.
    have hp : (⟨m.lower, r.lower⟩ : Interval α) ∈
        put s.cmp ⟨m.lower, r.lower⟩ (put s.cmp ⟨r.upper, m.upper⟩ s.members) :=
      (mem_put hinc₁ _ _).mpr (Or.inl rfl)
    rw [if_pos hsame, members_trimAfter_of_same hinc₂ hbounded hp hsame hr]
    refine Increasing.ext (increasing_put hinc₂ _) (increasing_put hs.increasing _) ?_
    intro x
    rw [mem_put hinc₂, mem_put hinc₁, mem_put hs.increasing, mem_put hs.increasing]
    grind
  · rw [if_neg hsame]
    have hp : (⟨r.upper, m.upper⟩ : Interval α) ∈
        put s.cmp ⟨m.lower, r.lower⟩ (put s.cmp ⟨r.upper, m.upper⟩ s.members) := by
      rw [mem_put hinc₁, mem_put hs.increasing]
      exact Or.inr ⟨Or.inl rfl, by grind⟩
    rw [members_trimAfter_of_same hinc₂ hbounded hp (by grind) (by grind)]
    exact put_of_mem hinc₂ hp

/-- Where no member reaches the start of the interval, the end of the member that spans its end is
    stored. -/
theorem members_trim_of_not_reaches (hs : Normal s.cmp s.members) (hbounded : r.upper.isBounded)
    (hfar : ∀ m ∈ s.members, Cut.lt s.cmp m.lower r.lower → Cut.lt s.cmp m.upper r.lower) :
    ((s.trimBefore r).trimAfter r).members =
      match s.members.find? fun m =>
          Cut.le s.cmp m.lower r.upper && Cut.lt s.cmp r.upper m.upper with
      | some m => put s.cmp ⟨r.upper, m.upper⟩ s.members
      | none => s.members := by
  have htrim : s.trimBefore r = s := by
    unfold trimBefore
    cases hbefore : s.before? r.lower with
    | none => rfl
    | some m =>
      obtain ⟨hm, hlower, -⟩ := before?_eq_some hs hbefore
      have hm' := hfar m hm hlower
      rw [Cut.lt_eq_not_le, Bool.not_eq_true'] at hm'
      simp only [hm', Bool.false_eq_true, if_false]
  rw [htrim]
  cases hfind : s.members.find? fun m => Cut.le s.cmp m.lower r.upper &&
      Cut.lt s.cmp r.upper m.upper with
  | some m =>
    have hspan := List.find?_some hfind
    rw [Bool.and_eq_true] at hspan
    have hm := List.mem_of_find?_eq_some hfind
    have hkeep : (r.upper.isBounded && Cut.le s.cmp r.upper m.upper) = true := by
      rw [hbounded]
      grind
    rw [trimAfter, floor?_of_reaches hs hm hspan.1 (by grind)]
    show (keepAfter s r m).members = _
    rw [keepAfter, if_pos hkeep, store_of_lt hspan.2]
  | none =>
    have hnone := List.find?_eq_none.mp hfind
    unfold trimAfter
    cases hfloor : s.floor? r.upper with
    | none => rfl
    | some m =>
      obtain ⟨hm, hle, -⟩ := floor?_eq_some hs hfloor
      have hm' := hnone m hm
      show (keepAfter s r m).members = s.members
      unfold keepAfter
      by_cases hkeep : (r.upper.isBounded && Cut.le s.cmp r.upper m.upper) = true
      · -- The member ends with the interval, so an empty interval is stored, at a cut where no
        -- member starts.
        rw [if_pos hkeep, members_store_of_le (by grind)]
        refine List.filter_eq_self.mpr ?_
        intro x hx
        have hxm := hs.eq_or_apart hx hm
        have hnx := hs.nonempty x hx
        grind
      · rw [if_neg hkeep]

/-- **Erasing a crossed interval stores its pieces**, each in the place of the member that starts
    where it does. -/
theorem erase_of_crossed (hs : Normal s.cmp s.members) (hr : Cut.lt s.cmp r.upper r.lower)
    (hbounded : r.upper.isBounded) :
    (s.erase r).members = (s.crossedPieces r).foldl (fun ms p => put s.cmp p ms) s.members := by
  have hcmp : ((s.trimBefore r).trimAfter r).cmp = s.cmp := by simp
  have : Std.TransCmp ((s.trimBefore r).trimAfter r).cmp := hcmp ▸ inferInstance
  unfold erase crossedPieces
  rw [members_dropBetween_of_le]
  · -- No member starts between crossed cuts, so only the two trimming steps count.
    cases hfind : s.members.find? fun m => Cut.lt s.cmp m.lower r.lower &&
        Cut.le s.cmp r.lower m.upper with
    | some m =>
      have hspan := List.find?_some hfind
      rw [Bool.and_eq_true] at hspan
      rw [members_trim_of_reaches hs hr hbounded (List.mem_of_find?_eq_some hfind) hspan.1 hspan.2]
      show _ = List.foldl _ _ (ite _ _ _)
      split <;> rfl
    | none =>
      have hnone := List.find?_eq_none.mp hfind
      rw [members_trim_of_not_reaches hs hbounded (by grind)]
      cases s.members.find? fun m => Cut.le s.cmp m.lower r.upper &&
          Cut.lt s.cmp r.upper m.upper with
      | some m => rfl
      | none => rfl
  · rw [hcmp]
    grind

end IntervalSet

/-- What a change with one range does to a cell that may be edited. -/
theorem Cell.applyRange_of_editable {c : Cell α} (hread : c.isReadOnly = false)
    (f : IntervalSet α → Interval α → IntervalSet α) (r : Range α) :
    c.applyRange f (some r) =
      if !r.isValid then (c, [.invalidRange (some r)])
      else if r.isEmpty then (c, []) else (c.change (f c.set r.toInterval), []) := by
  unfold applyRange
  rw [hread]
  rfl

namespace Store

/-- **Crossed ranges are judged in their own order.**  Take any set that a run of requests in one
    order made and that may be edited, and any range whose lower endpoint exceeds its upper one in
    that order.  When it does so in the order of the range too, adding and removing the range are
    refused and the set stays as it is.  Otherwise nothing is refused.  A range that is empty in its
    own order does nothing; any other one, when it is added, drops the member that starts where it
    starts, and when it is removed, stores its pieces. -/
theorem run_apply_crossed [Std.TransCmp cmp] {qs : List (Request α)} (hqs : ∀ q ∈ qs, q.ReadIn cmp)
    {c : Cell α} (hc : c ∈ ((empty : Store α).run qs).cells) (hread : c.isReadOnly = false)
    {r : Range α} {a b : α} (ha : r.lower.endpoint? = some a) (hb : r.upper.endpoint? = some b)
    (hgt : cmp a b = .gt) :
    (r.cmp a b = .gt →
      c.apply (.add (some r)) = (c, [.invalidRange (some r)]) ∧
        c.apply (.remove (some r)) = (c, [.invalidRange (some r)])) ∧
    (r.cmp a b ≠ .gt → r.isEmpty →
      c.apply (.add (some r)) = (c, []) ∧ c.apply (.remove (some r)) = (c, [])) ∧
    (r.cmp a b ≠ .gt → r.isEmpty = false →
      c.apply (.add (some r)) =
          (c.change ⟨cmp, c.set.members.filter fun m => !Cut.same cmp m.lower r.lower⟩, []) ∧
        c.apply (.remove (some r)) = (c.change ⟨cmp, (c.set.crossedPieces r.toInterval).foldl
          (fun ms p => IntervalSet.put cmp p ms) c.set.members⟩, [])) := by
  have hvalid : r.isValid = (r.cmp a b).isLE := Interval.isValid_of_endpoints ha hb
  have hadd : c.apply (.add (some r)) = _ := Cell.applyRange_of_editable hread .insert r
  have hremove : c.apply (.remove (some r)) = _ := Cell.applyRange_of_editable hread .erase r
  obtain ⟨rfl, hnormal⟩ := sound_run sound_empty hqs c hc
  rw [hadd, hremove, hvalid]
  refine ⟨?_, ?_, ?_⟩
  · -- The order of the range itself sees the crossed ends, and the range is refused.
    intro hown
    rw [hown]
    exact ⟨rfl, rfl⟩
  · intro hown hempty
    have hle : (r.cmp a b).isLE := Ordering.isLE_iff_ne_gt.mpr hown
    rw [hle, hempty]
    exact ⟨rfl, rfl⟩
  · -- In its own order the range is a proper one, but in the order of the set its ends are crossed.
    intro hown hempty
    have hle : (r.cmp a b).isLE := Ordering.isLE_iff_ne_gt.mpr hown
    have hcrossed : Cut.lt c.set.cmp r.upper r.lower := Cut.lt_of_endpoints ha hb hgt
    have hbounded : r.upper.isBounded := by
      rw [Cut.isBounded, hb]
      rfl
    rw [hle, hempty]
    constructor
    · rw [← IntervalSet.insert_of_crossed hnormal hcrossed, ← IntervalSet.insert_cmp]
      rfl
    · rw [← IntervalSet.erase_of_crossed hnormal hcrossed hbounded, ← IntervalSet.erase_cmp]
      rfl

/-- Two sets of integers. -/
def sampleBounds : List (Request Int) :=
  [.make compare [some ⟨.closed 5 8, compare⟩], .make compare [some ⟨.closed 0 10, compare⟩]]

/-- The range from 5 down to 1, which is valid in the reversed order. -/
def sampleDescent : Range Int :=
  ⟨.closed 5 1, fun a b => compare b a⟩

/-- Removing a range that is read downwards from a set that is read upwards: the members overlap
    afterwards. -/
theorem sampleDescent_apply :
    (⟨⟨compare, [.closed 0 10]⟩, 1, false⟩ : Cell Int).apply (.remove (some sampleDescent)) =
      (⟨⟨compare, [.closedOpen 0 5, ⟨.above 1, .above 10⟩]⟩, 2, false⟩, []) := by
  have hqs : ∀ q ∈ sampleBounds, q.ReadIn compare := by simp [sampleBounds, Request.ReadIn]
  have hcells : ((empty : Store Int).run sampleBounds).cells =
      [⟨⟨compare, [.closed 5 8]⟩, 1, false⟩, ⟨⟨compare, [.closed 0 10]⟩, 1, false⟩] := rfl
  have hc : ⟨⟨compare, [.closed 0 10]⟩, 1, false⟩ ∈
      ((empty : Store Int).run sampleBounds).cells := by simp [hcells]
  obtain ⟨-, -, h⟩ := run_apply_crossed hqs hc rfl (r := sampleDescent) (a := 5) (b := 1) rfl rfl
    (by decide)
  exact (h (by decide) (by decide)).2

/-- Adding the descending range takes the first set away, and removing it from the second one leaves
    two members that overlap; neither is refused. -/
theorem sampleDescent_accepted :
    compare (5 : Int) 1 = .gt ∧
      (((empty : Store Int).run sampleBounds).perform
        (.add ⟨0, .inside⟩ (some sampleDescent))).2.isEmpty ∧
      (((empty : Store Int).run sampleBounds).perform
        (.add ⟨0, .inside⟩ (some sampleDescent))).1.intervals? (some ⟨0, .inside⟩) = some [] ∧
      (((empty : Store Int).run sampleBounds).perform
        (.remove ⟨1, .inside⟩ (some sampleDescent))).2.isEmpty ∧
      (((empty : Store Int).run sampleBounds).perform
        (.remove ⟨1, .inside⟩ (some sampleDescent))).1.intervals? (some ⟨1, .inside⟩) =
        some [.closedOpen 0 5, ⟨.above 1, .above 10⟩] := by
  decide

end Store

end Allotment
