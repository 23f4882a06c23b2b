import Allotment.Proofs.IntervalSet.Versions

namespace Allotment

/-!
# Walks

A cursor holds no copy of the intervals that it walks over.  Each step looks for the next member in
the set as it is by then, and a walk over the outside makes the gaps up on its way from member to
member.  Between two steps anything may happen to the set.  Still a walk shows the intervals of one
state only, that of its start:

* `Cursor.upcoming` — the intervals that a cursor still has to show, if the set stays as it is;
* `Cursor.Advanced` — what a step does that is not cut short; it shows the first of the upcoming
  intervals;
* `Store.Scene`, `Store.Scene.answers` — a walk together with the requests between its steps;
* `Store.Scene.Follows` — what the scene has in common with the cell at the start of the walk;
* `Store.walk_shows_start` — whatever is done, the intervals that are shown are the first ones of
  the start.
-/

universe u

variable {α : Type u}

/-- Only one cut is after all values. -/
theorem Cut.isTop_eq_false {c : Cut α} (hc : c ≠ .top) : c.isTop = false := by
  cases c with
  | bottom => rfl
  | below v => rfl
  | above v => rfl
  | top => exact absurd rfl hc

/-! ### What is still to come -/

namespace Cursor

variable {k k' : Cursor α} {s : IntervalSet α} {m : Interval α} {ms : List (Interval α)}

/-- The intervals that a cursor still has to show, if the set stays as it is. -/
def upcoming (k : Cursor α) (s : IntervalSet α) : List (Interval α) :=
  match k.progress, k.side with
  | .walking, .inside => k.remaining s
  | .walking, .outside => IntervalSet.gapsFrom s.cmp k.reached (k.remaining s)
  | .lastGap, _ | .finished, _ | .broken, _ => []

/-- A walk over a set has its remaining members to come. -/
theorem upcoming_inside (hwalking : k.progress = .walking) (hside : k.side = .inside)
    (s : IntervalSet α) : k.upcoming s = k.remaining s := by
  unfold upcoming
  rw [hwalking, hside]

/-- A walk over an outside has the gaps between the remaining members to come. -/
theorem upcoming_outside (hwalking : k.progress = .walking) (hside : k.side = .outside)
    (s : IntervalSet α) : k.upcoming s = IntervalSet.gapsFrom s.cmp k.reached (k.remaining s) := by
  unfold upcoming
  rw [hwalking, hside]

/-- A cursor that never shows an interval again. -/
def Stopped (k : Cursor α) : Prop :=
  k.progress = .finished ∨ k.progress = .broken

/-- A cursor after it has found another version. -/
def cutShort (k : Cursor α) : Cursor α :=
  { k with progress := .broken, current? := none }

/-- How the progress of a cursor shows in the interval under it: a cursor over the outside is at the
    last gap exactly when the gap has no upper end. -/
structure Placed (k : Cursor α) : Prop where
  walking : k.progress = .walking → k.side = .outside → ∀ i, k.current? = some i →
    i.upper.isTop = false
  lastGap : k.progress = .lastGap → k.side = .outside ∧ ∃ i, k.current? = some i ∧ i.upper.isTop
  stopped : k.Stopped → k.current? = none

/-- A walk that has just begun shows nothing, and has stopped nowhere. -/
theorem placed_start (c : Cell α) (side : Side) : (start c side).Placed :=
  ⟨fun _ _ _ hi => (by cases hi), fun h => (by cases h), fun _ => rfl⟩

/-- A cursor that moves to an interval shows it and goes on, unless this is the last gap. -/
theorem placed_of_walking (hk : k.progress = .walking) {i : Interval α}
    (hi : k.side = .outside → i.upper.isTop = false) : (k.moveTo i).Placed where
  walking _ hside x hx := by
    cases hx
    exact hi hside
  lastGap hlast := by cases hk.symm.trans hlast
  stopped hstopped := by rcases hstopped with hstop | hstop <;> cases hk.symm.trans hstop

/-- A cursor that has stopped shows nothing. -/
theorem placed_of_stopped (hk : k.Stopped) (hnone : k.current? = none) : k.Placed where
  walking hwalking := by rcases hk with hk | hk <;> simp [hk] at hwalking
  lastGap hlast := by rcases hk with hk | hk <;> simp [hk] at hlast
  stopped _ := hnone

/-- Nothing comes after a walk has stopped. -/
theorem upcoming_of_stopped (hk : k.Stopped) (s : IntervalSet α) : k.upcoming s = [] := by
  unfold upcoming
  rcases hk with hk | hk <;> rw [hk]

/-- What remains of the members are members. -/
theorem mem_of_mem_remaining {x : Interval α} (hx : x ∈ k.remaining s) : x ∈ s.members := by
  unfold remaining at hx
  split at hx
  · exact hx
  · exact (List.mem_filter.mp hx).1

/-- The members past the first of the remaining ones remain when that one has been passed. -/
theorem remaining_pass [Std.TransCmp s.cmp] (hs : s.Ordered) (hk : k.remaining s = m :: ms) :
    (k.pass m).remaining s = ms := by
  -- Past `m` there are only the members that come after it in the list.
  have hfirst : ∀ {l : List (Interval α)}, IntervalSet.Increasing s.cmp l → l = m :: ms →
      l.filter (fun x => Cut.lt s.cmp m.lower x.lower) = ms := by
    rintro l hl rfl
    obtain ⟨hhead, -⟩ := List.pairwise_cons.mp hl
    have hself : Cut.lt s.cmp m.lower m.lower = false := by grind
    rw [List.filter_cons_of_neg (by simp [hself]), List.filter_eq_self.mpr hhead]
  show s.members.filter (fun x => Cut.lt s.cmp m.lower x.lower) = ms
  unfold remaining at hk
  split at hk
  · exact hfirst hs.increasing hk
  · rename_i c _
    have hcm : Cut.lt s.cmp c m.lower := by
      have hm : m ∈ s.members.filter fun x => Cut.lt s.cmp c x.lower := hk ▸ List.mem_cons_self ..
      exact (List.mem_filter.mp hm).2
    -- A member past `m` is past the cut that was passed before, too.
    have hboth : s.members.filter (fun x => Cut.lt s.cmp m.lower x.lower) =
        (s.members.filter fun x => Cut.lt s.cmp c x.lower).filter fun x =>
        Cut.lt s.cmp m.lower x.lower := by
      rw [List.filter_filter]
      refine List.filter_congr fun x _ => ?_
      grind
    rw [hboth]
    exact hfirst (hs.increasing.filter _) hk

/-! ### One step -/

/-- What a step from `k` to `k'` does, unless it is cut short: the interval that it shows is the
    first one that was to come.  When there is none, the walk has stopped. -/
structure Advanced (s : IntervalSet α) (k k' : Cursor α) : Prop where
  version : k'.version = k.version
  side : k'.side = k.side
  error : k'.error? = k.error?
  placed : k'.Placed
  upcoming : k.upcoming s = k'.current?.toList ++ k'.upcoming s
  stopped : k'.current? = none → k'.Stopped

/-- A step shows the first interval that was to come. -/
theorem Advanced.head? (h : Advanced s k k') : k'.current? = (k.upcoming s).head? := by
  rw [h.upcoming]
  cases hcurrent : k'.current? with
  | none => simp [upcoming_of_stopped (h.stopped hcurrent)]
  | some i => rfl

/-- After a step the others are to come. -/
theorem Advanced.tail (h : Advanced s k k') : k'.upcoming s = (k.upcoming s).tail := by
  rw [h.upcoming]
  cases hcurrent : k'.current? with
  | none => simp [upcoming_of_stopped (h.stopped hcurrent)]
  | some i => rfl

/-- A cursor that is not walking does not look at the set. -/
theorem advanced_of_not_walking (hk : k.Placed) (hwalking : k.progress ≠ .walking) (c : Cell α)
    (s : IntervalSet α) : Advanced s k (k.next c) := by
  have hsame : k.Stopped → Advanced s k k := fun hstopped =>
    ⟨rfl, rfl, rfl, hk, by simp [hk.stopped hstopped], fun _ => hstopped⟩
  unfold next
  cases hprogress : k.progress with
  | walking => exact absurd hprogress hwalking
  | lastGap =>
    refine ⟨rfl, rfl, ?_, placed_of_stopped (Or.inl rfl) rfl, ?_, fun _ => Or.inl rfl⟩
    · simp [error?, finish, hprogress]
    · simp [upcoming, finish, hprogress]
  | finished => exact hsame (Or.inl hprogress)
  | broken => exact hsame (Or.inr hprogress)

/-- The step to the next member. -/
theorem advanced_nextMember [Std.TransCmp s.cmp] (hs : s.Ordered) (hwalking : k.progress = .walking)
    (hside : k.side = .inside) : Advanced s k (k.nextMember (k.remaining s)) := by
  have hupcoming := upcoming_inside hwalking hside s
  cases hremaining : k.remaining s with
  | nil =>
    refine ⟨rfl, rfl, ?_, placed_of_stopped (Or.inl rfl) rfl, ?_, fun _ => Or.inl rfl⟩
    · simp [nextMember, error?, finish, hwalking]
    · rw [hupcoming, hremaining]
      rfl
  | cons m ms =>
    -- What remains is found again from the cut that the cursor has reached.
    have hrest : (k.pass m).remaining s = ms := remaining_pass hs hremaining
    have hplaced : ((k.pass m).moveTo m).Placed :=
      placed_of_walking (k := k.pass m) hwalking fun houtside => by
        cases hside.symm.trans houtside
    refine ⟨rfl, rfl, rfl, hplaced, ?_, fun hnone => by cases hnone⟩
    show k.upcoming s = m :: ((k.pass m).moveTo m).upcoming s
    rw [hupcoming, hremaining, upcoming_inside (k := (k.pass m).moveTo m) hwalking hside]
    exact congrArg (m :: ·) hrest.symm

/-- The gaps that are passed over because they are empty were not to come. -/
theorem advanced_nextGap [Std.TransCmp s.cmp] (hs : s.Ordered) (hwalking : k.progress = .walking)
    (hside : k.side = .outside) (hremaining : k.remaining s = ms) :
    Advanced s k (nextGap s.cmp k ms) := by
  induction ms generalizing k with
  | nil =>
    -- After the last member there is the gap without an upper end, or the walk is finished.
    have hupcoming : k.upcoming s = IntervalSet.keepNonempty s.cmp ⟨k.reached, .top⟩ := by
      rw [upcoming_outside hwalking hside, hremaining]
      rfl
    unfold nextGap
    by_cases hempty : (⟨k.reached, .top⟩ : Interval α).isEmpty s.cmp
    · simp only [hempty, if_true]
      refine ⟨rfl, rfl, ?_, placed_of_stopped (Or.inl rfl) rfl, ?_, fun _ => Or.inl rfl⟩
      · simp [error?, finish, hwalking]
      · rw [hupcoming, IntervalSet.keepNonempty, if_pos hempty]
        rfl
    · simp only [hempty]
      refine ⟨rfl, rfl, ?_, ⟨fun h => (by cases h), fun _ => ⟨hside, _, rfl, rfl⟩, ?_⟩, ?_,
        fun hnone => by cases hnone⟩
      · simp [error?, moveTo, hwalking]
      · rintro (hstop | hstop) <;> cases hstop
      · rw [hupcoming, IntervalSet.keepNonempty, if_neg hempty]
        rfl
  | cons m ms ih =>
    have hrest : (k.pass m).remaining s = ms := remaining_pass hs hremaining
    have hpassed : (k.pass m).upcoming s = IntervalSet.gapsFrom s.cmp m.upper ms := by
      rw [upcoming_outside (k := k.pass m) hwalking hside, hrest]
      rfl
    have hupcoming : k.upcoming s =
        IntervalSet.keepNonempty s.cmp ⟨k.reached, m.lower⟩ ++ (k.pass m).upcoming s := by
      rw [upcoming_outside hwalking hside, hremaining, hpassed]
      rfl
    unfold nextGap
    -- The gap before the member is shown, unless it is empty; then the search goes on behind the
    -- member.
    by_cases hempty : (⟨k.reached, m.lower⟩ : Interval α).isEmpty s.cmp
    · have hadvanced := ih (k := k.pass m) hwalking hside hrest
      rw [IntervalSet.keepNonempty, if_pos hempty, List.nil_append] at hupcoming
      simp only [hempty, if_true]
      exact { hadvanced with upcoming := hupcoming.trans hadvanced.upcoming }
    · rw [IntervalSet.keepNonempty, if_neg hempty] at hupcoming
      simp only [hempty]
      have hmem : m ∈ s.members := mem_of_mem_remaining (hremaining ▸ List.mem_cons_self ..)
      have hplaced : ((k.pass m).moveTo ⟨k.reached, m.lower⟩).Placed :=
        placed_of_walking (k := k.pass m) hwalking fun _ => Cut.isTop_eq_false
          (hs.lower_ne_top m hmem)
      exact ⟨rfl, rfl, rfl, hplaced, hupcoming, fun hnone => by cases hnone⟩

/-- While the set has the version of the cursor, each step goes on. -/
theorem advanced_of_version {c : Cell α} [Std.TransCmp c.set.cmp] (hs : c.set.Ordered)
    (hk : k.Placed) (hversion : c.version = k.version) : Advanced c.set k (k.next c) := by
  by_cases hwalking : k.progress = .walking
  · unfold next
    simp only [hwalking, hversion, ne_eq, not_true_eq_false, if_false]
    cases hside : k.side with
    | inside => exact advanced_nextMember hs hwalking hside
    | outside => exact advanced_nextGap hs hwalking hside rfl
  · exact advanced_of_not_walking hk hwalking c c.set

/-- A step through a cell that was changed since the start, fewer times than the version can count:
    a cursor that is still walking stops there, and no other cursor notices. -/
theorem next_of_after {c₀ c : Cell α} {n : Nat} [Std.TransCmp c₀.set.cmp] (hs : c₀.set.Ordered)
    (hafter : Cell.After n c₀ c) (hn : n < 2 ^ 64) (hk : k.Placed)
    (hversion : k.version = c₀.version) :
    (n = 0 ∨ k.progress ≠ .walking) ∧ Advanced c₀.set k (k.next c) ∨
      (n ≠ 0 ∧ k.progress = .walking) ∧ k.next c = k.cutShort := by
  by_cases hsame : c.version = c₀.version
  · obtain ⟨hzero, rfl⟩ := hafter.eq_of_version hn hsame
    exact Or.inl ⟨Or.inl hzero, advanced_of_version hs hk hversion.symm⟩
  · by_cases hwalking : k.progress = .walking
    · have hne : n ≠ 0 := fun hzero => hsame (congrArg Cell.version (hafter.eq_of_zero hzero))
      refine Or.inr ⟨⟨hne, hwalking⟩, ?_⟩
      have hdiffers : c.version ≠ k.version := hversion ▸ hsame
      simp only [next, hwalking, hdiffers, ne_eq, not_false_eq_true, if_true]
      rfl
    · exact Or.inl ⟨Or.inr hwalking, advanced_of_not_walking hk hwalking c c₀.set⟩

end Cursor

/-! ### Walks between requests -/

namespace Store

/-- Something done while a walk goes on: a step of the walk, or a request to the store. -/
inductive Action (α : Type u) where
  | step
  | ask (q : Request α)

/-- A store, and a cursor that walks over the intervals that a handle names. -/
structure Scene (α : Type u) where
  store : Store α
  cursor : Cursor α

namespace Scene

/-- The scene at the start of a walk. -/
def start (st : Store α) (h : Handle) : Scene α :=
  ⟨st, st.walk h⟩

/-- The scene after one action. -/
def act (h : Handle) (s : Scene α) : Action α → Scene α
  | .step => { s with cursor := s.store.step h s.cursor }
  | .ask q => { s with store := (s.store.perform q).1 }

/-- The scene after some actions. -/
def run (h : Handle) (s : Scene α) : List (Action α) → Scene α
  | [] => s
  | a :: acts => (s.act h a).run h acts

/-- The cursor after each of the steps among some actions. -/
def answers (h : Handle) (s : Scene α) : List (Action α) → List (Cursor α)
  | [] => []
  | .step :: acts => (s.act h .step).cursor :: (s.act h .step).answers h acts
  | .ask q :: acts => (s.act h (.ask q)).answers h acts

/-- How often some actions change the cell that is walked over. -/
def changes (h : Handle) (s : Scene α) : List (Action α) → Nat
  | [] => 0
  | .step :: acts => (s.act h .step).changes h acts
  | .ask q :: acts => q.changes s.store h + (s.act h (.ask q)).changes h acts

/-- A scene in which the cell `c₀` has been changed `n` times since the walk over it began. -/
structure Follows (c₀ : Cell α) (h : Handle) (n : Nat) (s : Scene α) : Prop where
  cell : ∃ c, s.store.cell? h = some c ∧ Cell.After n c₀ c
  version : s.cursor.version = c₀.version
  side : s.cursor.side = h.side
  placed : s.cursor.Placed

variable {h : Handle} {c₀ : Cell α} {s : Scene α} {n : Nat}

/-- A walk begins with the set as it is. -/
theorem follows_start {st : Store α} (hc : st.cell? h = some c₀) : Follows c₀ h 0 (start st h) := by
  have hwalk : st.walk h = .start c₀ h.side := by
    unfold walk
    rw [hc]
  refine ⟨⟨c₀, hc, Cell.After.rfl⟩, ?_, ?_, ?_⟩
  · exact congrArg Cursor.version hwalk
  · exact congrArg Cursor.side hwalk
  · show (st.walk h).Placed
    rw [hwalk]
    exact Cursor.placed_start c₀ h.side

/-- A request between two steps may change the set, but not the cursor. -/
theorem Follows.ask (hs : Follows c₀ h n s) (q : Request α) :
    Follows c₀ h (n + q.changes s.store h) (s.act h (.ask q)) := by
  obtain ⟨c, hc, hafter⟩ := hs.cell
  obtain ⟨c', hc', hafter'⟩ := after_perform hc q
  exact ⟨⟨c', hc', hafter.trans hafter'⟩, hs.version, hs.side, hs.placed⟩

variable [Std.TransCmp c₀.set.cmp]

/-- What a step of the walk does depends on whether there were changes. -/
theorem Follows.cursor_step (hs : Follows c₀ h n s) (horder : c₀.set.Ordered) (hn : n < 2 ^ 64) :
    (n = 0 ∨ s.cursor.progress ≠ .walking) ∧
      Cursor.Advanced c₀.set s.cursor (s.act h .step).cursor ∨
      (n ≠ 0 ∧ s.cursor.progress = .walking) ∧ (s.act h .step).cursor = s.cursor.cutShort := by
  obtain ⟨c, hc, hafter⟩ := hs.cell
  have hstep : (s.act h .step).cursor = s.cursor.next c := by
    show s.store.step h s.cursor = _
    unfold Store.step
    rw [hc]
  rw [hstep]
  exact Cursor.next_of_after horder hafter hn hs.placed hs.version

/-- A step leaves the set as it is. -/
theorem Follows.step (hs : Follows c₀ h n s) (horder : c₀.set.Ordered) (hn : n < 2 ^ 64) :
    Follows c₀ h n (s.act h .step) := by
  rcases hs.cursor_step horder hn with ⟨-, hadvanced⟩ | ⟨-, hshort⟩
  · exact ⟨hs.cell, hadvanced.version.trans hs.version, hadvanced.side.trans hs.side,
      hadvanced.placed⟩
  · refine ⟨hs.cell, ?_, ?_, ?_⟩
    · rw [hshort]
      exact hs.version
    · rw [hshort]
      exact hs.side
    · rw [hshort]
      exact Cursor.placed_of_stopped (Or.inr rfl) rfl

/-- Steps and requests together, as long as the changes can be counted. -/
theorem Follows.run (hs : Follows c₀ h n s) (horder : c₀.set.Ordered) (acts : List (Action α))
    (hn : n + s.changes h acts < 2 ^ 64) : Follows c₀ h (n + s.changes h acts) (s.run h acts) := by
  induction acts generalizing s n with
  | nil => exact hs
  | cons a acts ih =>
    cases a with
    | step =>
      simp only [changes] at hn ⊢
      exact ih (hs.step horder (by omega)) hn
    | ask q =>
      simp only [changes, ← Nat.add_assoc] at hn ⊢
      exact ih (hs.ask q) hn

/-- The intervals that are shown come from those that were to come, in their order and without a gap
    between them. -/
theorem Follows.shown_upcoming (hs : Follows c₀ h n s) (horder : c₀.set.Ordered)
    {acts : List (Action α)} (hn : n + s.changes h acts < 2 ^ 64) :
    (s.answers h acts).filterMap Cursor.current? <+: s.cursor.upcoming c₀.set := by
  induction acts generalizing s n with
  | nil => exact List.nil_prefix
  | cons a acts ih =>
    cases a with
    | ask q =>
      simp only [changes, ← Nat.add_assoc] at hn
      exact ih (hs.ask q) hn
    | step =>
      simp only [changes] at hn
      have hrest := ih (hs.step horder (by omega)) hn
      simp only [answers, List.filterMap_cons]
      rcases hs.cursor_step horder (by omega) with ⟨-, hadvanced⟩ | ⟨-, hshort⟩
      · rw [hadvanced.upcoming]
        cases hcurrent : (s.act h .step).cursor.current? with
        | none => exact hrest
        | some i => exact List.prefix_cons_inj i |>.mpr hrest
      · -- A walk that is cut short has nothing to come.
        have hnone : (s.act h .step).cursor.upcoming c₀.set = [] :=
          Cursor.upcoming_of_stopped (Or.inr (by rw [hshort]; rfl)) _
        have hempty := List.prefix_nil.mp (hnone ▸ hrest)
        have hcurrent : (s.act h .step).cursor.current? = none := by
          rw [hshort]
          rfl
        rw [hcurrent, hempty]
        exact List.nil_prefix

omit [Std.TransCmp c₀.set.cmp] in
/-- A walk that has stopped gives the same answer over and over, whatever is asked of the store. -/
theorem answers_of_stopped (hstopped : s.cursor.Stopped) (acts : List (Action α)) :
    ∀ k ∈ s.answers h acts, k = s.cursor := by
  induction acts generalizing s with
  | nil =>
    intro k hk
    cases hk
  | cons a acts ih =>
    cases a with
    | ask q => exact ih (s := s.act h (.ask q)) hstopped
    | step =>
      have hsame : (s.act h .step).cursor = s.cursor := by
        show s.store.step h s.cursor = _
        unfold Store.step
        cases s.store.cell? h with
        | none => rfl
        | some c => rcases hstopped with hstop | hstop <;> simp only [Cursor.next, hstop]
      intro k hk
      rcases List.mem_cons.mp hk with rfl | hk
      · exact hsame
      · exact (ih (s := s.act h .step) (hsame ▸ hstopped) k hk).trans hsame

/-- After a step that shows no interval, all later ones give the same answer. -/
theorem Follows.answers_pairwise (hs : Follows c₀ h n s) (horder : c₀.set.Ordered)
    {acts : List (Action α)} (hn : n + s.changes h acts < 2 ^ 64) :
    (s.answers h acts).Pairwise fun k k' => k.current? = none → k' = k := by
  induction acts generalizing s n with
  | nil => exact List.Pairwise.nil
  | cons a acts ih =>
    cases a with
    | ask q =>
      simp only [changes, ← Nat.add_assoc] at hn
      exact ih (hs.ask q) hn
    | step =>
      simp only [changes] at hn
      refine List.pairwise_cons.mpr ⟨?_, ih (hs.step horder (by omega)) hn⟩
      intro k' hk' hnone
      -- A cursor that shows nothing has stopped, either at the end or by a change.
      refine answers_of_stopped ?_ acts k' hk'
      rcases hs.cursor_step horder (by omega) with ⟨-, hadvanced⟩ | ⟨-, hshort⟩
      · exact hadvanced.stopped hnone
      · exact Or.inr (by rw [hshort]; rfl)

/-- Without a change the steps show what was to come, one interval each, and then nothing more. -/
theorem Follows.answers_eq (hs : Follows c₀ h 0 s) (horder : c₀.set.Ordered)
    {acts : List (Action α)} (hn : s.changes h acts = 0) {i : Nat} {k : Cursor α}
    (hk : (s.answers h acts)[i]? = some k) :
    k.current? = (s.cursor.upcoming c₀.set)[i]? ∧ k.error? = s.cursor.error? := by
  induction acts generalizing s i with
  | nil => cases hk
  | cons a acts ih =>
    cases a with
    | ask q =>
      simp only [changes, Nat.add_eq_zero_iff] at hn
      have hsame := hs.ask q
      rw [hn.1] at hsame
      exact ih hsame hn.2 hk
    | step =>
      simp only [changes] at hn
      have hnext := hs.step horder (by omega)
      rcases hs.cursor_step horder (by omega) with ⟨-, hadvanced⟩ | ⟨⟨hne, -⟩, -⟩
      · -- Nothing was changed, so the step goes on: the first answer is the first interval, the
        -- others follow.
        cases i with
        | zero =>
          simp only [answers, List.getElem?_cons_zero, Option.some.injEq] at hk
          subst hk
          rw [← List.head?_eq_getElem?]
          exact ⟨hadvanced.head?, hadvanced.error⟩
        | succ i =>
          simp only [answers, List.getElem?_cons_succ] at hk
          obtain ⟨hcurrent, herror⟩ := ih hnext hn hk
          rw [hadvanced.tail, List.getElem?_tail] at hcurrent
          exact ⟨hcurrent, herror.trans hadvanced.error⟩
      · exact absurd rfl hne

end Scene

/-- A walk begins without an error. -/
theorem error?_walk (st : Store α) (h : Handle) : (st.walk h).error? = none := by
  unfold walk
  cases st.cell? h with
  | none => rfl
  | some c => rfl

/-- At the start of a walk all intervals are to come. -/
theorem upcoming_walk {st : Store α} {h : Handle} {c : Cell α} (hc : st.cell? h = some c) :
    (st.walk h).upcoming c.set = (c.view h.side).intervals := by
  unfold walk
  rw [hc]
  cases hside : h.side with
  | inside => rfl
  | outside => rfl

/-- **A walk shows the intervals of one state.**  Take any set that requests can make, in an order
    that is one, and walk over it or over its outside.  Between the steps ask anything of the store;
    the set itself may be changed from either side, fewer times than a version can count.  The
    intervals that the steps show are the first ones of the set as it was at the start: none is left
    out and none comes twice.  After a step that shows none, all others show none and report the
    same error.  And when nothing changed the set, each step shows the interval whose turn it is, up
    to the last one, and no error is reported. -/
theorem walk_shows_start {st : Store α} {h : Handle} {w : View α} (hst : st.Attainable)
    (hw : st.view? h = some w) (horder : Std.TransCmp w.cmp) (acts : List (Action α))
    (hfew : (Scene.start st h).changes h acts < 2 ^ 64) :
    (((Scene.start st h).answers h acts).filterMap Cursor.current? <+: w.intervals) ∧
      (((Scene.start st h).answers h acts).Pairwise fun k k' =>
        k.current? = none → k'.current? = none ∧ k'.error? = k.error?) ∧
      ((Scene.start st h).changes h acts = 0 → ∀ (i : Nat) (k : Cursor α),
        ((Scene.start st h).answers h acts)[i]? = some k →
          k.current? = w.intervals[i]? ∧ k.error? = none) := by
  obtain ⟨c, hc, rfl⟩ := Option.map_eq_some_iff.mp hw
  have : Std.TransCmp c.set.cmp := horder
  have hordered : c.set.Ordered := hst.ordered c (List.mem_of_getElem? hc) horder
  have hfollows := Scene.follows_start hc
  rw [← upcoming_walk hc]
  refine ⟨hfollows.shown_upcoming hordered (by omega), ?_, ?_⟩
  · refine (hfollows.answers_pairwise hordered (by omega)).imp ?_
    intro k k' hsame hnone
    rw [hsame hnone]
    exact ⟨hnone, rfl⟩
  · intro hzero i k hk
    obtain ⟨hcurrent, herror⟩ := hfollows.answers_eq hordered hzero hk
    exact ⟨hcurrent, herror.trans (error?_walk st h)⟩

/-- A store with the set of the integers from 1 to 3 and from 7 to 8. -/
def sampleStore : Store Int :=
  (empty : Store Int).run [.make compare [some ⟨.closed 1 3, compare⟩,
    some ⟨.closedOpen 7 9, compare⟩]]

/-- A walk during which another set is made, an absent range is added, and then the set is changed
    from both sides. -/
def sampleActions : List (Action Int) :=
  [.step, .ask (.make compare []), .ask (.add ⟨0, .inside⟩ none), .step,
    .ask (.add ⟨0, .outside⟩ (some ⟨.closed 2 8, compare⟩)), .step, .ask (.clear ⟨0, .inside⟩),
    .step]

/-- A walk over an outside with requests between its steps.  Two of them do not touch the set, and
    after the third the walk shows no more. -/
theorem sampleActions_shows_start :
    sampleStore.Attainable ∧
      (Scene.start sampleStore ⟨0, .outside⟩).changes ⟨0, .outside⟩ sampleActions = 2 ∧
      ((Scene.start sampleStore ⟨0, .outside⟩).answers ⟨0, .outside⟩ sampleActions).map
          Cursor.current? =
        [some ⟨.bottom, .below 1⟩, some ⟨.above 3, .below 7⟩, none, none] ∧
      ((Scene.start sampleStore ⟨0, .outside⟩).answers ⟨0, .outside⟩ sampleActions).filterMap
          Cursor.current? <+:
        [⟨.bottom, .below 1⟩, ⟨.above 3, .below 7⟩, ⟨.below 9, .top⟩] :=
  have hst : sampleStore.Attainable := ⟨_, rfl⟩
  have hw : sampleStore.view? ⟨0, .outside⟩ =
      some ⟨⟨compare, [.closed 1 3, .closedOpen 7 9]⟩, .outside⟩ := rfl
  have horder : Std.TransCmp (compare : Int → Int → Ordering) := inferInstance
  have hfew : (Scene.start sampleStore ⟨0, .outside⟩).changes ⟨0, .outside⟩ sampleActions <
      2 ^ 64 := by decide
  ⟨hst, by decide, by decide, (walk_shows_start hst hw horder sampleActions hfew).1⟩

end Store

end Allotment
