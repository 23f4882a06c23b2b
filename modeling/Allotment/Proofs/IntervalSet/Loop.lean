import Allotment.IntervalSet.Loop
import Allotment.Proofs.IntervalSet.Walk

namespace Allotment

/-!
# Loops over a set that changes

A walk is meant to fail as soon as the set has changed under it, and with it the loop whose body
made the change.  There is one place where it does not.  A cursor over the outside of a set that
shows the gap without an upper end knows that no other one can follow.  It finishes at the next step
without a look at the version, so a change that is made at this very place goes unnoticed.

* `Side.isLastGap`, `Cursor.isAtLastGap` — this place;
* `Scene.Follows.step_of_changed` — the first step after a change;
* `LoopBody`, `LoopBody.outcome` — the body of a loop, and what becomes of a loop over given
  intervals;
* `forEachFrom_of_changed`, `forEachFrom_eq` — a loop takes the intervals of the start, up to the
  first change that is noticed;
* `walk_failsFast` — so walks and loops fail on every change, except at the last gap.
-/

universe u v

variable {α : Type u} {σ : Type v}

/-- Whether an interval of a side is a gap without an upper end. -/
def Side.isLastGap (side : Side) (i : Interval α) : Bool :=
  decide (side = .outside) && i.upper.isTop

/-- Whether a cursor shows the gap without an upper end. -/
def Cursor.isAtLastGap (k : Cursor α) : Bool :=
  k.current?.any k.side.isLastGap

/-- A cursor that shows the last gap has taken note of it, and only such a cursor has. -/
theorem Cursor.Placed.isAtLastGap_iff {k : Cursor α} (hk : k.Placed) :
    k.isAtLastGap ↔ k.progress = .lastGap := by
  unfold isAtLastGap
  rw [Option.any_eq_true]
  constructor
  · rintro ⟨i, hi, hlast⟩
    simp only [Side.isLastGap, Bool.and_eq_true, decide_eq_true_eq] at hlast
    cases hprogress : k.progress with
    | lastGap => rfl
    -- A walk past this gap would have ended with it.
    | walking =>
      have htop := hk.walking hprogress hlast.1 i hi
      rw [hlast.2] at htop
      cases htop
    | finished => cases (hk.stopped (Or.inl hprogress)).symm.trans hi
    | broken => cases (hk.stopped (Or.inr hprogress)).symm.trans hi
  · intro hlast
    obtain ⟨hside, i, hi, htop⟩ := hk.lastGap hlast
    exact ⟨i, hi, by simp [Side.isLastGap, hside, htop]⟩

namespace Store

variable {h : Handle} {c₀ : Cell α} {n : Nat}

namespace Scene

variable {s : Scene α}

/-- Requests between two steps count as changes of the set that is walked over, and leave the cursor
    alone. -/
theorem Follows.asks {st : Store α} {k : Cursor α} (hs : Follows c₀ h n ⟨st, k⟩)
    (qs : List (Request α)) : Follows c₀ h (n + st.changes h qs) ⟨st.run qs, k⟩ := by
  obtain ⟨c, hc, hafter⟩ := hs.cell
  obtain ⟨c', hc', hafter'⟩ := after_run hc qs
  exact ⟨⟨c', hc', hafter.trans hafter'⟩, hs.version, hs.side, hs.placed⟩

variable [Std.TransCmp c₀.set.cmp]

/-- The first step after a change shows nothing, and reports the change unless it comes from the
    last gap. -/
theorem Follows.step_of_changed (hs : Follows c₀ h n s) (horder : c₀.set.Ordered) (hn : n < 2 ^ 64)
    (hchanged : n ≠ 0) (hgoing : ¬ s.cursor.Stopped) :
    (s.act h .step).cursor.current? = none ∧
      (s.act h .step).cursor.error? = if s.cursor.isAtLastGap then none else some .modified := by
  have hgap := hs.placed.isAtLastGap_iff
  rcases hs.cursor_step horder hn with ⟨hzero | hstill, hadvanced⟩ | ⟨⟨-, hwalking⟩, hshort⟩
  · exact absurd hzero hchanged
  · have hlast : s.cursor.progress = .lastGap := by
      unfold Cursor.Stopped at hgoing
      cases hprogress : s.cursor.progress <;> simp_all
    rw [if_pos (hgap.mpr hlast), hadvanced.head?, hadvanced.error]
    simp [Cursor.upcoming, Cursor.error?, hlast]
  · rw [if_neg (fun hat => by cases hwalking.symm.trans (hgap.mp hat)), hshort]
    exact ⟨rfl, rfl⟩

/-- Without a change, a step goes on to the next interval. -/
theorem Follows.advanced (hs : Follows c₀ h 0 s) (horder : c₀.set.Ordered) :
    Cursor.Advanced c₀.set s.cursor (s.act h .step).cursor := by
  rcases hs.cursor_step horder (by omega) with ⟨-, hadvanced⟩ | ⟨⟨hne, -⟩, -⟩
  · exact hadvanced
  · exact absurd rfl hne

/-- As long as every step shows an interval, the walk goes on. -/
theorem Follows.not_stopped (hs : Follows c₀ h n s) (horder : c₀.set.Ordered)
    (hgoing : ¬ s.cursor.Stopped) {acts : List (Action α)} (hn : n + s.changes h acts < 2 ^ 64)
    (hshown : ∀ k ∈ s.answers h acts, k.current?.isSome) : ¬ (s.run h acts).cursor.Stopped := by
  induction acts generalizing s n with
  | nil => exact hgoing
  | cons a acts ih =>
    cases a with
    | ask q =>
      simp only [changes, ← Nat.add_assoc] at hn
      exact ih (hs.ask q) hgoing hn hshown
    | step =>
      simp only [changes] at hn
      have hnext := hs.step horder (by omega)
      have hsome := hshown _ (List.mem_cons_self ..)
      refine ih hnext ?_ hn fun k hk => hshown k (List.mem_cons_of_mem _ hk)
      -- A cursor that has stopped shows nothing, but this one was seen to show something.
      intro hstopped
      rw [hnext.placed.stopped hstopped] at hsome
      cases hsome

end Scene

/-! ### Loops -/

/-- The body of a loop.  It works on a state that holds a store, to which it makes requests; whether
    it goes on is up to it. -/
structure LoopBody (α : Type u) (σ : Type v) where
  storeOf : σ → Store α
  run : σ → Interval α → σ × Bool
  /-- What the body asks of the store in a state, with an interval. -/
  asks : σ → Interval α → List (Request α)
  storeOf_run : ∀ s i, storeOf (run s i).1 = (storeOf s).run (asks s i)

/-- How a loop ends, in which state, and how often the body has changed the set by then. -/
structure LoopEnd (α : Type u) (σ : Type v) where
  state : σ
  ending : Ending α
  changes : Nat

namespace LoopBody

/-- What becomes of a loop over given intervals of the set that a handle names: the body is run for
    one after another, until it asks for no more or has changed the set.  A change is an error,
    except at the last gap. -/
def outcome (b : LoopBody α σ) (h : Handle) : List (Interval α) → σ → LoopEnd α σ
  | [], s => ⟨s, .finished, 0⟩
  | i :: is, s =>
    let n := (b.storeOf s).changes h (b.asks s i)
    if (b.run s i).2 = false then ⟨(b.run s i).1, .left, n⟩
    else if n = 0 then b.outcome h is (b.run s i).1
    else ⟨(b.run s i).1, if h.side.isLastGap i then .finished else .failed .modified, n⟩

end LoopBody

variable [Std.TransCmp c₀.set.cmp]

/-- A loop whose body has changed the set ends with the next step, which reports the change unless
    it comes from the last gap. -/
theorem forEachFrom_of_changed (b : LoopBody α σ) {s : σ} {k : Cursor α} {i : Interval α}
    (hs : Scene.Follows c₀ h n ⟨b.storeOf s, k⟩) (horder : c₀.set.Ordered) (hn : n < 2 ^ 64)
    (hchanged : n ≠ 0) (hcurrent : k.current? = some i) (patience : Nat) :
    forEachFrom b.storeOf h b.run (patience + 1) s k =
      some (s, if h.side.isLastGap i then .finished else .failed .modified) := by
  have hgoing : ¬ k.Stopped := by
    intro hstopped
    cases hcurrent.symm.trans (hs.placed.stopped hstopped)
  obtain ⟨hnone, hnoticed⟩ := hs.step_of_changed horder hn hchanged hgoing
  -- The loop sees the interval, the cursor its own note of it; both say the same.
  have hgap : k.isAtLastGap = h.side.isLastGap i := by
    unfold Cursor.isAtLastGap
    rw [hcurrent, show k.side = h.side from hs.side]
    rfl
  have hstop : ((b.storeOf s).step h k).current? = none := hnone
  have hended : ((b.storeOf s).step h k).error? = if h.side.isLastGap i then none
      else some .modified := by
    rw [← hgap]
    exact hnoticed
  simp only [forEachFrom, hstop, hended]
  cases h.side.isLastGap i <;> rfl

/-- A loop whose set has not changed so far goes through the intervals that are to come, up to the
    first change that the cursor notices. -/
theorem forEachFrom_eq (b : LoopBody α σ) {s : σ} {k : Cursor α} {is : List (Interval α)}
    {patience : Nat} (hs : Scene.Follows c₀ h 0 ⟨b.storeOf s, k⟩) (horder : c₀.set.Ordered)
    (herror : k.error? = none) (hupcoming : k.upcoming c₀.set = is)
    (hfew : (b.outcome h is s).changes < 2 ^ 64) (hpatience : is.length < patience) :
    forEachFrom b.storeOf h b.run patience s k =
      some ((b.outcome h is s).state, (b.outcome h is s).ending) := by
  induction is generalizing s k patience with
  | nil =>
    obtain ⟨patience, rfl⟩ := Nat.exists_eq_add_of_lt hpatience
    have hadvanced : Cursor.Advanced c₀.set k ((b.storeOf s).step h k) := hs.advanced horder
    have hcurrent : ((b.storeOf s).step h k).current? = none := by
      rw [hadvanced.head?, hupcoming]
      rfl
    have hfine : ((b.storeOf s).step h k).error? = none := hadvanced.error.trans herror
    simp only [forEachFrom, hcurrent, hfine]
    rfl
  | cons i is ih =>
    obtain ⟨patience, rfl⟩ : ∃ p, patience = p + 2 :=
      ⟨patience - 2, by rw [List.length_cons] at hpatience; omega⟩
    have hadvanced : Cursor.Advanced c₀.set k ((b.storeOf s).step h k) := hs.advanced horder
    have hcurrent : ((b.storeOf s).step h k).current? = some i := by
      rw [hadvanced.head?, hupcoming]
      rfl
    have hrest : ((b.storeOf s).step h k).upcoming c₀.set = is := by
      rw [hadvanced.tail, hupcoming]
      rfl
    -- The scene when the body is done.
    have hdone := (hs.step horder (by omega)).asks (b.asks s i)
    rw [Nat.zero_add, ← b.storeOf_run] at hdone
    rw [forEachFrom]
    unfold LoopBody.outcome at hfew ⊢
    cases hrun : b.run s i with
    | mk s' goesOn =>
      simp only [hcurrent, hrun] at hdone hfew ⊢
      cases goesOn with
      | false => rfl
      | true =>
        simp only [Bool.true_eq_false, if_false] at hfew ⊢
        by_cases hzero : (b.storeOf s).changes h (b.asks s i) = 0
        · simp only [hzero, if_true] at hdone hfew ⊢
          exact ih hdone (hadvanced.error.trans herror) hrest hfew
            (by rw [List.length_cons] at hpatience; omega)
        · simp only [hzero, if_false] at hfew ⊢
          exact forEachFrom_of_changed b hdone horder hfew hzero hcurrent patience

/-- **Walks and loops fail fast, except at the last gap.**  Take any set that requests can make, in
    an order that is one, and walk over it or over its outside.  When the set was changed since the
    start, from either side and fewer times than a version can count, and every step so far has
    shown an interval, then the next step shows none.  It reports the change, unless the cursor
    stands at a gap without an upper end: there it reports nothing.  So a loop takes one interval of
    the start after the other, until its body asks for no more or has changed the set; and it then
    fails, unless this was at the gap without an upper end. -/
theorem walk_failsFast {st : Store α} {h : Handle} {w : View α} (hst : st.Attainable)
    (hw : st.view? h = some w) (horder : Std.TransCmp w.cmp) :
    (∀ acts : List (Action α), (∀ k ∈ (Scene.start st h).answers h acts, k.current?.isSome) →
      0 < (Scene.start st h).changes h acts → (Scene.start st h).changes h acts < 2 ^ 64 →
        (((Scene.start st h).run h acts).act h .step).cursor.current? = none ∧
          (((Scene.start st h).run h acts).act h .step).cursor.error? =
            if ((Scene.start st h).run h acts).cursor.isAtLastGap then none else some .modified) ∧
      ∀ (b : LoopBody α σ) (s : σ) (patience : Nat), b.storeOf s = st →
        (b.outcome h w.intervals s).changes < 2 ^ 64 → w.intervals.length < patience →
          forEach b.storeOf h b.run patience s =
            some ((b.outcome h w.intervals s).state, (b.outcome h w.intervals s).ending) := by
  obtain ⟨c, hc, rfl⟩ := Option.map_eq_some_iff.mp hw
  have : Std.TransCmp c.set.cmp := horder
  have hordered : c.set.Ordered := hst.ordered c (List.mem_of_getElem? hc) horder
  have hfollows := Scene.follows_start hc
  constructor
  · intro acts hshown hchanged hfew
    -- A walk that has just begun has not stopped, and it goes on as long as it shows intervals.
    have hgoing : ¬ (Scene.start st h).cursor.Stopped := by
      show ¬ (st.walk h).Stopped
      unfold walk
      rw [hc]
      rintro (hstop | hstop) <;> cases hstop
    have hend := hfollows.run hordered acts (by omega)
    have hstill := hfollows.not_stopped hordered hgoing (by omega) hshown
    exact hend.step_of_changed hordered (by omega) (by omega) hstill
  · rintro b s patience rfl hfew hpatience
    exact forEachFrom_eq b hfollows hordered (error?_walk _ h) (upcoming_walk hc) hfew hpatience

/-- The request to take the value 2 out of the sample set. -/
def sampleRemoval : Request Int :=
  .remove ⟨0, .inside⟩ (some ⟨.singleton 2, compare⟩)

/-- A loop body that does nothing but to make this request when it comes to a certain interval. -/
def sampleBody (last : Interval Int) : LoopBody Int (Store Int) where
  storeOf s := s
  run s i := (s.run (if i = last then [sampleRemoval] else []), true)
  asks _ i := if i = last then [sampleRemoval] else []
  storeOf_run _ _ := rfl

/-- The last member of the sample set is no gap, so a change there is noticed. -/
theorem sampleStore_failsFast :
    ((Scene.start sampleStore ⟨0, .inside⟩).answers ⟨0, .inside⟩
        [.step, .step, .ask sampleRemoval]).map Cursor.current? =
        [some (.closed 1 3), some (.closedOpen 7 9)] ∧
      (((Scene.start sampleStore ⟨0, .inside⟩).run ⟨0, .inside⟩
        [.step, .step, .ask sampleRemoval]).act ⟨0, .inside⟩ .step).cursor.error? =
        some .modified ∧
      forEach (sampleBody (.closedOpen 7 9)).storeOf ⟨0, .inside⟩
        (sampleBody (.closedOpen 7 9)).run 3 sampleStore =
        some (sampleStore.run [sampleRemoval], .failed .modified) :=
  have hst : sampleStore.Attainable := ⟨_, rfl⟩
  have hw : sampleStore.view? ⟨0, .inside⟩ =
      some ⟨⟨compare, [.closed 1 3, .closedOpen 7 9]⟩, .inside⟩ := rfl
  have horder : Std.TransCmp (compare : Int → Int → Ordering) := inferInstance
  have hlaws := walk_failsFast (σ := Store Int) hst hw horder
  ⟨by decide, (hlaws.1 [.step, .step, .ask sampleRemoval] (by decide) (by decide) (by decide)).2,
    hlaws.2 (sampleBody (.closedOpen 7 9)) sampleStore 3 rfl (by decide) (by decide)⟩

/-- The last gap of the sample set has no upper end: the same change at this place goes unnoticed by
    the walk, which ends without an error, and by the loop, which ends as if nothing had
    happened. -/
theorem sampleStore_unnoticed :
    ((Scene.start sampleStore ⟨0, .outside⟩).answers ⟨0, .outside⟩
        [.step, .step, .step, .ask sampleRemoval]).map Cursor.current? =
        [some ⟨.bottom, .below 1⟩, some ⟨.above 3, .below 7⟩, some ⟨.below 9, .top⟩] ∧
      (Scene.start sampleStore ⟨0, .outside⟩).changes ⟨0, .outside⟩
        [.step, .step, .step, .ask sampleRemoval] = 1 ∧
      (((Scene.start sampleStore ⟨0, .outside⟩).run ⟨0, .outside⟩
        [.step, .step, .step, .ask sampleRemoval]).act ⟨0, .outside⟩ .step).cursor.error? =
        none ∧
      forEach (sampleBody ⟨.below 9, .top⟩).storeOf ⟨0, .outside⟩
        (sampleBody ⟨.below 9, .top⟩).run 4 sampleStore =
        some (sampleStore.run [sampleRemoval], .finished) :=
  ⟨by decide, by decide, rfl, rfl⟩

end Store

end Allotment
