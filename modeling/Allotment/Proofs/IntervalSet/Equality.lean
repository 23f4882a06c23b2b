import Allotment.Proofs.Address.Domain
import Allotment.Proofs.IntervalSet.Bulk

namespace Allotment

/-!
# When two sets are equal

Sets are compared interval by interval.  Since intervals are in normal form, this finds out whether
the two sets cover the same cuts.  It need not find out whether they contain the same values: where
no value lies between two cuts, a set that covers the first and a set that covers both have the same
values.

Over a discrete domain, ranges in half-open form start and end at cuts below values.  A region that
changes only at such cuts is determined by its values, and no operation on sets makes a region
change elsewhere.

* `View.equal_iff_covers_of_reachable` — sets are equal when they cover the same cuts;
* `Cut.Steady`, `Cut.EdgedBy` — where a region changes;
* `Cut.EdgedBy.of_iff` — a combination of two regions changes only where one of them does;
* `Interval.edgedBy_region`, `IntervalSet.edgedBy_region` — an interval changes where it starts and
  where it ends, and a list of them where one of them does;
* `IntervalSet.Normal.covers_of_edgedBy` — a region that changes at values is determined by its
  values;
* `Recipe` — sets that are made from half-open forms of ranges;
* `Recipe.extensional_of_uses` — such sets are equal when they contain the same values.
-/

universe u

variable {α : Type u} {cmp : α → α → Ordering}

/-! ### The same cuts -/

/-- **Sets are equal when they cover the same cuts.**  Take any two views that requests in one order
    can make, of sets or of their outsides.  They are equal exactly when each cut, but the one above
    all values, lies in an interval of both or of none.  Then they contain the same values. -/
theorem View.equal_iff_covers_of_reachable [Std.TransCmp cmp] {s t : View α} (hs : s.Reachable cmp)
    (ht : t.Reachable cmp) :
    (s.equal (some t) ↔ ∀ c : Cut α, c ≠ .top →
      ((∃ m ∈ s.intervals, Cut.le cmp m.lower c ∧ Cut.lt cmp c m.upper) ↔
        ∃ m ∈ t.intervals, Cut.le cmp m.lower c ∧ Cut.lt cmp c m.upper)) ∧
      (s.equal (some t) → ∀ v, s.contains v = t.contains v) := by
  have hequal := View.equal_iff hs.sound ht.sound
  constructor
  · rw [hequal, Set.ext_iff, Subtype.forall]
    exact Iff.rfl
  · intro h v
    rw [Bool.eq_iff_iff, hs.sound.contains_iff, ht.sound.contains_iff, hequal.mp h]

/-- A set that is made from two ranges that abut, and a set whose outside covers the same cuts. -/
def sampleHalves : List (Store.Request Int) :=
  [.make compare [some ⟨.closed 1 3, compare⟩, some ⟨⟨.above 3, .below 8⟩, compare⟩],
    .make compare [some ⟨⟨.below 8, .top⟩, compare⟩, some ⟨⟨.bottom, .below 1⟩, compare⟩]]

/-- The views of the two sides of the sample sets. -/
def sampleHalf (h : Handle) : View Int :=
  (((Store.empty : Store Int).run sampleHalves).view? h).getD (View.whole compare)

/-- Two ranges that were joined to one, and the outside of the other two: the same set. -/
theorem sampleHalf_equal_iff_covers :
    (sampleHalf ⟨0, .inside⟩).Reachable compare ∧ (sampleHalf ⟨1, .outside⟩).Reachable compare ∧
      (sampleHalf ⟨0, .inside⟩).equal (some (sampleHalf ⟨1, .outside⟩)) ∧
      ∀ v, (sampleHalf ⟨0, .inside⟩).contains v = (sampleHalf ⟨1, .outside⟩).contains v :=
  have hqs : ∀ q ∈ sampleHalves, q.ReadIn compare := by simp [sampleHalves, Store.Request.ReadIn]
  have h₀ : (sampleHalf ⟨0, .inside⟩).Reachable compare := ⟨sampleHalves, ⟨0, .inside⟩, hqs, rfl⟩
  have h₁ : (sampleHalf ⟨1, .outside⟩).Reachable compare := ⟨sampleHalves, ⟨1, .outside⟩, hqs, rfl⟩
  have hequal : (sampleHalf ⟨0, .inside⟩).equal (some (sampleHalf ⟨1, .outside⟩)) := by decide
  ⟨h₀, h₁, hequal, (View.equal_iff_covers_of_reachable h₀ h₁).2 hequal⟩

/-! ### Where a region changes -/

namespace Cut

/-- Some stretch of cuts that ends with `c` is in the region as a whole, or not at all. -/
def Steady (cmp : α → α → Ordering) (R : Set (Start α)) (c : Start α) : Prop :=
  ∃ a : Start α, lt cmp a.1 c.1 ∧ ∀ x : Start α, le cmp a.1 x.1 → le cmp x.1 c.1 → (x ∈ R ↔ c ∈ R)

/-- A region that leaves out the first cut and changes only at cuts below values of `P`. -/
structure EdgedBy (cmp : α → α → Ordering) (P : α → Prop) (R : Set (Start α)) : Prop where
  bottom_notMem : Start.bottom ∉ R
  steady : ∀ c : Start α, c.1 ≠ .bottom → (∀ v, P v → same cmp c.1 (.below v) = false) →
    Steady cmp R c

variable {P : α → Prop}

/-- The empty region changes nowhere. -/
theorem edgedBy_empty : EdgedBy cmp P ∅ :=
  ⟨Set.notMem_empty _, fun c hc _ => ⟨.bottom, (bottom_lt_iff c.1).mpr hc, fun _ _ _ => Iff.rfl⟩⟩

/-- The half-open form of a cut beside a value of `P` stands below a value of `P`, or is the last
    cut. -/
theorem canonical_cases {d : Domain α} (hd : d.LawfulOn cmp P) {c : Cut α}
    (hc : ∀ v, c.endpoint? = some v → P v) :
    c = .bottom ∨ c.canonical d = .top ∨ ∃ v, P v ∧ c.canonical d = .below v := by
  cases c with
  | bottom => exact Or.inl rfl
  | below v => exact Or.inr (Or.inr ⟨v, hc v rfl, rfl⟩)
  | above v =>
    cases hnext : d.next v with
    | none => exact Or.inr (Or.inl (canonical_above_none hnext))
    | some w => exact Or.inr (Or.inr ⟨w, hd.next_mem v w (hc v rfl) hnext,
        canonical_above_some hnext⟩)
  | top => exact Or.inr (Or.inl rfl)

variable [Std.TransCmp cmp] {R S T : Set (Start α)} {f : Prop → Prop → Prop}

/-- Where two regions are steady, a region that is made of them cut by cut is steady: of the two
    stretches, the shorter one will do. -/
theorem Steady.of_iff {c : Start α} (hR : Steady cmp R c) (hS : Steady cmp S c)
    (hT : ∀ x, x ∈ T ↔ f (x ∈ R) (x ∈ S)) : Steady cmp T c := by
  obtain ⟨a, ha, hRa⟩ := hR
  obtain ⟨b, hb, hSb⟩ := hS
  by_cases hab : le cmp a.1 b.1
  · refine ⟨b, hb, fun x hbx hxc => ?_⟩
    rw [hT, hT, hRa x (le_trans hab hbx) hxc, hSb x hbx hxc]
  · have hba : le cmp b.1 a.1 := by grind
    refine ⟨a, ha, fun x hax hxc => ?_⟩
    rw [hT, hT, hRa x hax hxc, hSb x (le_trans hba hax) hxc]

/-- What is made from two regions cut by cut changes only where one of them does. -/
theorem EdgedBy.of_iff (hR : EdgedBy cmp P R) (hS : EdgedBy cmp P S) (hf : ¬ f False False)
    (hT : ∀ x, x ∈ T ↔ f (x ∈ R) (x ∈ S)) : EdgedBy cmp P T := by
  refine ⟨?_, fun c hc hP => (hR.steady c hc hP).of_iff (hS.steady c hc hP) hT⟩
  rw [hT, eq_false hR.bottom_notMem, eq_false hS.bottom_notMem]
  exact hf

/-- A union changes only where one of its regions does. -/
theorem EdgedBy.union (hR : EdgedBy cmp P R) (hS : EdgedBy cmp P S) : EdgedBy cmp P (R ∪ S) :=
  hR.of_iff (f := Or) hS (by simp) fun _ => Iff.rfl

/-- An intersection changes only where one of its regions does. -/
theorem EdgedBy.inter (hR : EdgedBy cmp P R) (hS : EdgedBy cmp P S) : EdgedBy cmp P (R ∩ S) :=
  hR.of_iff (f := And) hS (by simp) fun _ => Iff.rfl

/-- A difference changes only where one of its regions does. -/
theorem EdgedBy.sdiff (hR : EdgedBy cmp P R) (hS : EdgedBy cmp P S) : EdgedBy cmp P (R \ S) :=
  hR.of_iff (f := fun p q => p ∧ ¬ q) hS (by simp) fun _ => Iff.rfl

/-- The cuts from one on change at that one only. -/
theorem edgedBy_from {a : Cut α} (ha : a = .top ∨ ∃ v, P v ∧ a = .below v) :
    EdgedBy cmp P { x | le cmp a x.1 } := by
  constructor
  · intro (hle : le cmp a .bottom)
    rcases ha with rfl | ⟨v, -, rfl⟩
    · cases hle
    · cases hle
  · intro c hbottom hP
    by_cases hle : le cmp a c.1
    · -- `c` is not at `a`, so it comes after a stretch that starts with `a`.
      have hlt : lt cmp a c.1 := by
        rcases ha with rfl | ⟨v, hv, rfl⟩
        · have htop : lt cmp c.1 .top := (lt_top_iff c.1).mpr c.2
          grind
        · have hne := hP v hv
          grind
      exact ⟨⟨a, ne_top_of_lt hlt⟩, hlt, fun x hax _ => iff_of_true hax hle⟩
    · refine ⟨.bottom, (bottom_lt_iff c.1).mpr hbottom, fun x _ hxc => iff_of_false ?_ hle⟩
      exact fun hax => hle (le_trans hax hxc)

end Cut

namespace Interval

variable [Std.TransCmp cmp] {P : α → Prop}

/-- An interval with a lower bound changes only at its two cuts: it is what comes from the one on,
    less what comes from the other one on. -/
theorem edgedBy_region {r : Interval α} (hlower : r.lower = .top ∨ ∃ v, P v ∧ r.lower = .below v)
    (hupper : r.upper = .bottom ∨ r.upper = .top ∨ ∃ v, P v ∧ r.upper = .below v) :
    Cut.EdgedBy cmp P (r.region cmp) := by
  rcases hupper with hbottom | hupper
  · have hempty : r.region cmp = ∅ := by
      refine Set.eq_empty_of_forall_notMem fun c hc => ?_
      have hlt : Cut.lt cmp c.1 .bottom := hbottom ▸ hc.2
      have hle : Cut.le cmp .bottom c.1 := Cut.bottom_le c.1
      grind
    rw [hempty]
    exact Cut.edgedBy_empty
  · refine (Cut.edgedBy_from hlower).of_iff (f := fun p q => p ∧ ¬ q) (Cut.edgedBy_from hupper)
      (by simp) fun x => ?_
    show Cut.le cmp r.lower x.1 ∧ Cut.lt cmp x.1 r.upper ↔
      Cut.le cmp r.lower x.1 ∧ ¬ Cut.le cmp r.upper x.1
    rw [Cut.lt_eq_not_le, Bool.not_eq_true', Bool.not_eq_true]

end Interval

namespace IntervalSet

variable {P : α → Prop} {ms ns : List (Interval α)} {m : Interval α}

/-- In an order that tells all values apart, lists with the same intervals are equal. -/
theorem eq_of_sameIntervals [Std.LawfulEqCmp cmp] (h : View.sameIntervals cmp ms ns) : ms = ns := by
  induction ms generalizing ns with
  | nil =>
    cases ns with
    | nil => rfl
    | cons n ns => cases h
  | cons m ms ih =>
    cases ns with
    | nil => cases h
    | cons n ns =>
      simp only [View.sameIntervals, Interval.hasBoundsOf, Bool.and_eq_true] at h
      obtain ⟨⟨hlower, hupper⟩, hrest⟩ := h
      have hm : m = n := congrArg₂ Interval.mk (Cut.eq_of_same hlower) (Cut.eq_of_same hupper)
      rw [hm, ih hrest]

variable [Std.TransCmp cmp]

/-- The region of a list changes only where that of one of its members does. -/
theorem edgedBy_region (h : ∀ m ∈ ms, Cut.EdgedBy cmp P (m.region cmp)) :
    Cut.EdgedBy cmp P (region cmp ms) := by
  induction ms with
  | nil =>
    rw [region_nil]
    exact Cut.edgedBy_empty
  | cons m ms ih =>
    rw [List.forall_mem_cons] at h
    exact h.1.of_iff (f := Or) (ih h.2) (by simp) fun k => covers_cons m ms k.1

/-- Where a region changes only below values, its intervals start below values: a normal list has a
    gap before each of them. -/
theorem Normal.lower_of_edgedBy (h : Normal cmp ms) (hP : Cut.EdgedBy cmp P (region cmp ms))
    (hm : m ∈ ms) : ∃ v, P v ∧ Cut.same cmp m.lower (.below v) := by
  have hne := h.nonempty m hm
  have hstart : Covers cmp ms m.lower := ⟨m, hm, Cut.le_refl _, hne⟩
  have hbottom : m.lower ≠ .bottom := by
    intro heq
    rw [heq] at hstart
    exact hP.bottom_notMem hstart
  by_contra hedge
  simp only [not_exists, not_and, Bool.not_eq_true] at hedge
  obtain ⟨a, ha, hsteady⟩ := hP.steady ⟨m.lower, Cut.ne_top_of_lt hne⟩ hbottom hedge
  -- The member that covers `a` ends before `m` starts, and the end is still in the stretch.
  obtain ⟨n, hn, hspan⟩ := (hsteady a (Cut.le_refl _) (by grind)).mpr hstart
  have hapart := h.eq_or_apart hn hm
  unfold Interval.Spans at hspan
  have hend : Cut.lt cmp n.upper m.lower := by grind
  exact h.not_covers_upper hn
    ((hsteady ⟨n.upper, Cut.ne_top_of_lt hend⟩ (by grind) (by grind)).mpr hstart)

/-- Its intervals also end below values, or go on forever. -/
theorem Normal.upper_of_edgedBy (h : Normal cmp ms) (hP : Cut.EdgedBy cmp P (region cmp ms))
    (hm : m ∈ ms) : m.upper = .top ∨ ∃ v, P v ∧ Cut.same cmp m.upper (.below v) := by
  have hne := h.nonempty m hm
  by_cases htop : m.upper = .top
  · exact Or.inl htop
  right
  by_contra hedge
  simp only [not_exists, not_and, Bool.not_eq_true] at hedge
  have hbottom : m.upper ≠ .bottom := by
    have hlt : Cut.lt cmp .bottom m.upper := by
      have hle : Cut.le cmp .bottom m.lower := Cut.bottom_le _
      grind
    exact (Cut.bottom_lt_iff m.upper).mp hlt
  obtain ⟨a, ha, hsteady⟩ := hP.steady ⟨m.upper, htop⟩ hbottom hedge
  -- Of `a` and the start of `m`, the later one is covered by `m`, but the end of `m` is not.
  obtain ⟨x, hax, hmx, hxm⟩ : ∃ x : Cut.Start α,
      Cut.le cmp a.1 x.1 ∧ Cut.le cmp m.lower x.1 ∧ Cut.lt cmp x.1 m.upper := by
    by_cases hle : Cut.le cmp a.1 m.lower
    · exact ⟨⟨m.lower, Cut.ne_top_of_lt hne⟩, hle, Cut.le_refl _, hne⟩
    · exact ⟨a, Cut.le_refl _, by grind, ha⟩
  exact h.not_covers_upper hm ((hsteady x hax (by grind)).mp ⟨m, hm, hmx, hxm⟩)

/-- **A region that changes only below values is determined by its values.**  A member starts below
    a value, so a member of the other list is there too; where that one ended, there would be a
    value that only the first list has. -/
theorem Normal.covers_of_edgedBy (hms : Normal cmp ms) (hns : Normal cmp ns)
    (hmsP : Cut.EdgedBy cmp P (region cmp ms)) (hnsP : Cut.EdgedBy cmp P (region cmp ns))
    (h : ∀ v, P v → Covers cmp ms (.below v) → Covers cmp ns (.below v)) {c : Cut α}
    (hc : Covers cmp ms c) : Covers cmp ns c := by
  obtain ⟨m, hm, hlower, hupper⟩ := hc
  obtain ⟨a, ha, hstart⟩ := hms.lower_of_edgedBy hmsP hm
  obtain ⟨n, hn, hspan⟩ := h a ha ⟨m, hm, by unfold Interval.Spans; grind⟩
  unfold Interval.Spans at hspan
  by_cases hend : Cut.lt cmp c n.upper
  · exact ⟨n, hn, by grind, hend⟩
  exfalso
  rcases hns.upper_of_edgedBy hnsP hn with htop | ⟨w, hw, hsame⟩
  · rw [htop] at hend
    exact hend ((Cut.lt_top_iff c).mpr (Cut.ne_top_of_lt hupper))
  · obtain ⟨x, hx, hxspan⟩ := h w hw ⟨m, hm, by unfold Interval.Spans; grind⟩
    exact hns.not_covers_upper hn ⟨x, hx, by unfold Interval.Spans at hxspan ⊢; grind⟩

end IntervalSet

/-! ### The same values -/

namespace View

/-- What it means that two views over the values of `P` are equal, and that the first one leaves no
    two intervals side by side. -/
structure Extensional (cmp : α → α → Ordering) (d : Domain α) (P : α → Prop) (s t : View α) :
    Prop where
  equal_iff : s.equal (some t) ↔ ∀ v, s.contains v = t.contains v
  /-- It is enough to look at the values of `P`. -/
  equal_iff_on : s.equal (some t) ↔ ∀ v, P v → s.contains v = t.contains v
  intervals_eq : Std.LawfulEqCmp cmp → s.equal (some t) → s.intervals = t.intervals
  text_eq : Std.LawfulEqCmp cmp → s.equal (some t) → ∀ _ : Display α, s.text = t.text
  /-- A value and the one after it are in one interval, or one of them is in none. -/
  eq_of_next : ∀ m ∈ s.intervals, ∀ n ∈ s.intervals, ∀ v w, P v → d.next v = some w →
    m.contains cmp v → n.contains cmp w → m = n

variable [Std.TransCmp cmp] {d : Domain α} {P : α → Prop} {s t : View α}

/-- Sound views whose regions change at values of `P` only are equal when they have the same values
    of `P`. -/
theorem equal_iff_of_edgedBy (hs : s.Sound cmp) (ht : t.Sound cmp)
    (hsP : Cut.EdgedBy cmp P (s.region cmp)) (htP : Cut.EdgedBy cmp P (t.region cmp)) :
    s.equal (some t) ↔ ∀ v, P v → s.contains v = t.contains v := by
  rw [View.equal_iff hs ht]
  constructor
  · intro h v _
    rw [Bool.eq_iff_iff, hs.contains_iff, ht.contains_iff, h]
  · intro h
    -- The same values, said of the cuts below them; from these, the regions are the same
    -- everywhere.
    have hvalues : ∀ v, P v → (IntervalSet.Covers cmp s.intervals (.below v) ↔
        IntervalSet.Covers cmp t.intervals (.below v)) := by
      intro v hv
      have heq := h v hv
      rw [Bool.eq_iff_iff, hs.contains_iff, ht.contains_iff] at heq
      exact heq
    exact IntervalSet.region_eq_iff.mpr fun c =>
      ⟨hs.intervals.covers_of_edgedBy ht.intervals hsP htP fun v hv => (hvalues v hv).mp,
        ht.intervals.covers_of_edgedBy hs.intervals htP hsP fun v hv => (hvalues v hv).mpr⟩

/-- Where an interval ends at a value, no other one starts there: adjacent values share their
    interval. -/
theorem eq_of_next (hd : d.LawfulOn cmp P) (hs : s.Sound cmp)
    (hsP : Cut.EdgedBy cmp P (s.region cmp)) {m n : Interval α} (hm : m ∈ s.intervals)
    (hn : n ∈ s.intervals) {v w : α} (hv : P v) (hnext : d.next v = some w) (hmv : m.contains cmp v)
    (hnw : n.contains cmp w) : m = n := by
  have hlt : Cut.lt cmp (.below v) (.below w) := by
    simp [Cut.lt, Cut.compare, hd.lt_next v w hv hnext]
  obtain ⟨hmlower, hmupper⟩ := (Interval.contains_iff_spans m v).mp hmv
  obtain ⟨hnlower, hnupper⟩ := (Interval.contains_iff_spans n w).mp hnw
  rcases hs.intervals.eq_or_apart hm hn with heq | hapart | hapart
  · exact heq
  · -- The end of `m` would be a value between the two.
    exfalso
    rcases hs.intervals.upper_of_edgedBy hsP hm with htop | ⟨x, hx, hsame⟩
    · rw [htop] at hapart
      exact Cut.ne_top_of_lt hapart rfl
    · have hvx : cmp v x = .lt := by
        have hvx : Cut.lt cmp (.below v) (.below x) := by grind
        simpa [Cut.lt, Cut.compare] using hvx
      have hwx : Cut.le cmp (.below w) (.below x) := hd.next_le v w x hv hx hnext hvx
      grind
  · grind

/-- All of this for two sound views whose regions change at values of `P` only. -/
theorem Sound.extensional (hd : d.LawfulOn cmp P) (hs : s.Sound cmp) (ht : t.Sound cmp)
    (hsP : Cut.EdgedBy cmp P (s.region cmp)) (htP : Cut.EdgedBy cmp P (t.region cmp)) :
    Extensional cmp d P s t := by
  have hintervals : Std.LawfulEqCmp cmp → s.equal (some t) → s.intervals = t.intervals := by
    intro _ h
    have hsame : sameIntervals s.base.cmp s.intervals t.intervals := h
    rw [hs.order] at hsame
    exact IntervalSet.eq_of_sameIntervals hsame
  have hon := equal_iff_of_edgedBy hs ht hsP htP
  refine ⟨⟨fun h v => ?_, fun h => hon.mpr fun v _ => h v⟩, hon, hintervals, fun hcmp h _ => ?_,
    fun m hm n hn v w hv hnext hmv hnw => eq_of_next hd hs hsP hm hn hv hnext hmv hnw⟩
  · rw [Bool.eq_iff_iff, hs.contains_iff, ht.contains_iff, (View.equal_iff hs ht).mp h]
  · unfold text
    rw [hintervals hcmp h]

end View

/-- A way to make a set: from nothing, by adding and removing ranges in half-open form, and by
    combining two sets. -/
inductive Recipe (α : Type u) where
  | empty
  | add (s : Recipe α) (r : Range α)
  | remove (s : Recipe α) (r : Range α)
  | combine (op : Combination) (s t : Recipe α)

namespace Recipe

/-- The cell that a recipe makes. -/
def build (cmp : α → α → Ordering) (d : Domain α) : Recipe α → Cell α
  | .empty => (Cell.ofRanges cmp []).1
  | .add s r => ((s.build cmp d).apply (.add (some (r.canonical d)))).1
  | .remove s r => ((s.build cmp d).apply (.remove (some (r.canonical d)))).1
  | .combine op s t => (op.cell ((s.build cmp d).view .inside) ((t.build cmp d).view .inside)).1

/-- The set that a recipe makes. -/
def view (cmp : α → α → Ordering) (d : Domain α) (s : Recipe α) : View α :=
  (s.build cmp d).view .inside

/-- A range in the order `cmp` with a lower bound, whose endpoints are values of `P`. -/
@[mk_iff] structure Grounded (cmp : α → α → Ordering) (P : α → Prop) (r : Range α) : Prop where
  order : r.cmp = cmp
  isBounded : r.lower.isBounded
  lower : ∀ v, r.lower.endpoint? = some v → P v
  upper : ∀ v, r.upper.endpoint? = some v → P v

/-- A recipe all of whose ranges are grounded. -/
def Uses (cmp : α → α → Ordering) (P : α → Prop) : Recipe α → Prop
  | .empty => True
  | .add s r | .remove s r => s.Uses cmp P ∧ Grounded cmp P r
  | .combine _ s t => s.Uses cmp P ∧ t.Uses cmp P

variable [Std.TransCmp cmp] {d : Domain α} {P : α → Prop}

/-- The half-open form of a grounded range changes only below values. -/
theorem Grounded.edgedBy {r : Range α} (hd : d.LawfulOn cmp P) (hr : Grounded cmp P r) :
    Cut.EdgedBy cmp P ((r.canonical d).toInterval.region cmp) := by
  refine Interval.edgedBy_region ?_ ?_
  · rcases Cut.canonical_cases hd hr.lower with h | h | h
    · have hbounded := hr.isBounded
      rw [h] at hbounded
      cases hbounded
    · exact Or.inl h
    · exact Or.inr h
  · rcases Cut.canonical_cases hd hr.upper with h | h | h
    · exact Or.inl (congrArg (Cut.canonical d) h)
    · exact Or.inr (Or.inl h)
    · exact Or.inr (Or.inr h)

/-- What holds of every cell that a recipe makes. -/
structure Made (cmp : α → α → Ordering) (P : α → Prop) (c : Cell α) : Prop where
  sound : c.Sound cmp
  isEditable : c.isReadOnly = false
  edgedBy : Cut.EdgedBy cmp P ((c.view .inside).region cmp)

/-- An edit keeps what is known of a set that is made this way. -/
theorem Made.apply {c : Cell α} (hc : Made cmp P c) {e : Edit α} (he : e.ReadIn cmp)
    (hedged : Cut.EdgedBy cmp P (e.onRegion cmp ((c.view .inside).region cmp))) :
    Made cmp P (c.apply e).1 := by
  refine ⟨Cell.sound_apply hc.sound he, (Cell.apply_isReadOnly e).trans hc.isEditable, ?_⟩
  show Cut.EdgedBy cmp P (IntervalSet.region cmp (c.apply e).1.set.members)
  rw [Cell.region_apply hc.sound hc.isEditable he]
  exact hedged

/-- A combination changes only where one of the two sets does. -/
theorem Made.combine {c c' : Cell α} (hc : Made cmp P c) (hc' : Made cmp P c') (op : Combination) :
    Made cmp P (op.cell (c.view .inside) (c'.view .inside)).1 := by
  have hview := hc.sound.view .inside
  have hview' := hc'.sound.view .inside
  have hcell := op.sound_cell (b := c'.view .inside) hview
  -- The three combinations change only where their operands do.
  refine ⟨⟨hcell.order, hcell.normal⟩, op.isReadOnly_cell _ _, ?_⟩
  cases op with
  | union =>
    show Cut.EdgedBy cmp P (((c.view .inside).union (c'.view .inside)).region cmp)
    rw [View.region_union hview]
    exact hc.edgedBy.union hc'.edgedBy
  | difference =>
    show Cut.EdgedBy cmp P (((c.view .inside).difference (c'.view .inside)).region cmp)
    rw [View.region_difference hview]
    exact hc.edgedBy.sdiff hc'.edgedBy
  | meet =>
    show Cut.EdgedBy cmp P (((c.view .inside).meet (c'.view .inside)).region cmp)
    rw [View.region_meet hview hview']
    exact hc.edgedBy.inter hc'.edgedBy

/-- Each recipe makes a set that can be changed, and whose region changes at values of `P` only. -/
theorem made_build (hd : d.LawfulOn cmp P) {s : Recipe α} (hs : s.Uses cmp P) :
    Made cmp P (s.build cmp d) := by
  induction s with
  | empty =>
    refine ⟨⟨rfl, IntervalSet.normal_nil⟩, rfl, ?_⟩
    show Cut.EdgedBy cmp P (IntervalSet.region cmp [])
    rw [IntervalSet.region_nil]
    exact Cut.edgedBy_empty
  | add s r ih =>
    have hmade := ih hs.1
    exact hmade.apply (e := .add (some (r.canonical d))) (Range.Optional.readIn_some hs.2.order)
      (hmade.edgedBy.union (hs.2.edgedBy hd))
  | remove s r ih =>
    have hmade := ih hs.1
    exact hmade.apply (e := .remove (some (r.canonical d))) (Range.Optional.readIn_some hs.2.order)
      (hmade.edgedBy.sdiff (hs.2.edgedBy hd))
  | combine op s t ihs iht => exact (ihs hs.1).combine (iht hs.2) op

/-- **Over a discrete domain, sets are equal when they contain the same values.**  Take any two sets
    that are made from the empty set by adding and removing ranges and by unions, differences and
    common parts, where each range has a lower bound and is put into half-open form first.  They are
    equal exactly when they contain the same values; then they have the same intervals and the same
    text, if the order tells all values apart.  And adjacent values of such a set are always in one
    interval. -/
theorem extensional_of_uses (hd : d.LawfulOn cmp P) {s t : Recipe α} (hs : s.Uses cmp P)
    (ht : t.Uses cmp P) : View.Extensional cmp d P (s.view cmp d) (t.view cmp d) := by
  have hs' := made_build hd hs
  have ht' := made_build hd ht
  exact (hs'.sound.view .inside).extensional hd (ht'.sound.view .inside) hs'.edgedBy ht'.edgedBy

/-- The numbers from 5 up to the greatest one. -/
def sampleUpTo : Recipe Int64 :=
  .add .empty ⟨.closed 5 Int64.maxValue, Order.int64⟩

/-- The numbers from 5 on, put together from parts. -/
def sampleOnwards : Recipe Int64 :=
  .combine .union (.add .empty ⟨.closed 5 6, Order.int64⟩)
    (.combine .difference (.add .empty ⟨⟨.above 2, .top⟩, Order.int64⟩)
      (.add .empty ⟨.closedOpen 3 7, Order.int64⟩))

/-- The last address of one family and the first one of the other. -/
def sampleBorder : Recipe Address :=
  .add (.add .empty ⟨.singleton .firstV6, Address.order⟩) ⟨.singleton .lastV4, Address.order⟩

/-- The same two addresses, cut out of all the later ones. -/
def sampleCutOut : Recipe Address :=
  .remove (.add .empty ⟨⟨.below .lastV4, .top⟩, Address.order⟩)
    ⟨⟨.above .firstV6, .above .lastV6⟩, Address.order⟩

/-- Two sets of numbers up to the greatest one, and two sets of addresses across the border of the
    families, each made in two ways. -/
theorem sampleRecipes_extensional :
    (sampleUpTo.Uses Order.int64 (fun _ => True) ∧ sampleOnwards.Uses Order.int64 (fun _ => True) ∧
      View.Extensional Order.int64 .int64 (fun _ => True) (sampleUpTo.view Order.int64 .int64)
        (sampleOnwards.view Order.int64 .int64) ∧
      (sampleOnwards.view Order.int64 .int64).intervals = [⟨.below 5, .top⟩]) ∧
    (sampleBorder.Uses Address.order Address.IsPlain ∧
      sampleCutOut.Uses Address.order Address.IsPlain ∧
      View.Extensional Address.order Address.domain Address.IsPlain
        (sampleBorder.view Address.order Address.domain)
        (sampleCutOut.view Address.order Address.domain) ∧
      (sampleBorder.view Address.order Address.domain).equal
        (some (sampleCutOut.view Address.order Address.domain))) := by
  have hupTo : sampleUpTo.Uses Order.int64 (fun _ => True) := by
    simp [sampleUpTo, Uses, grounded_iff, Interval.closed, Cut.isBounded, Cut.endpoint?]
  have honwards : sampleOnwards.Uses Order.int64 (fun _ => True) := by
    simp [sampleOnwards, Uses, grounded_iff, Interval.closed, Interval.closedOpen, Cut.isBounded,
      Cut.endpoint?]
  have hborder : sampleBorder.Uses Address.order Address.IsPlain := by
    simp [sampleBorder, Uses, grounded_iff, Interval.singleton, Interval.closed, Cut.isBounded,
      Cut.endpoint?, Address.IsPlain, Address.firstV6, Address.lastV4, Address.isValid,
      Address.zone]
  have hcutOut : sampleCutOut.Uses Address.order Address.IsPlain := by
    simp [sampleCutOut, Uses, grounded_iff, Cut.isBounded, Cut.endpoint?, Address.IsPlain,
      Address.firstV6, Address.lastV6, Address.lastV4, Address.isValid, Address.zone]
  exact ⟨⟨hupTo, honwards, extensional_of_uses Domain.lawful_int64.lawfulOn hupTo
    honwards, by decide⟩, hborder, hcutOut, extensional_of_uses Address.lawfulOn_domain hborder
    hcutOut, by decide⟩

end Recipe

end Allotment
