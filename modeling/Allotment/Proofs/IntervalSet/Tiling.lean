import Mathlib.Data.List.Pairwise
import Allotment.Proofs.IntervalSet.Gaps

namespace Allotment.IntervalSet

/-!
# The members and the gaps of a set fill the line

Between the members of a set and at its ends are its gaps.  Laid side by side, members and gaps go
from the first cut to the last one: each of them begins at the cut where the one before it ends.

* `Tiles` — intervals that go from one cut to another, side by side;
* `tilesFrom` — the members and the gaps in the order in which they follow each other;
* `Tiles.eq_of_perm` — there is only one order in which intervals can be laid;
* `tiles_byLower` — so they are laid when they are sorted by their lower cuts.
-/

universe u

variable {α : Type u} {cmp : α → α → Ordering}

/-- Intervals that go from one cut to another: none is empty, and each begins at the cut where the
    one before it ends. -/
def Tiles (cmp : α → α → Ordering) : Cut α → List (Interval α) → Cut α → Prop
  | a, [], b => a = b
  | a, i :: is, b => i.lower = a ∧ Cut.lt cmp i.lower i.upper ∧ Tiles cmp i.upper is b

/-- The members and the gaps from a cut on, side by side. -/
def tilesFrom (cmp : α → α → Ordering) : Cut α → List (Interval α) → List (Interval α)
  | lower, [] => keepNonempty cmp ⟨lower, .top⟩
  | lower, m :: ms => keepNonempty cmp ⟨lower, m.lower⟩ ++ m :: tilesFrom cmp m.upper ms

/-- Intervals in the order of their lower cuts. -/
def byLower (cmp : α → α → Ordering) (is : List (Interval α)) : List (Interval α) :=
  is.mergeSort fun i j => Cut.le cmp i.lower j.lower

/-- The tiles are the members and the gaps, in another order. -/
theorem tilesFrom_perm (c : Cut α) (ms : List (Interval α)) :
    (tilesFrom cmp c ms).Perm (ms ++ gapsFrom cmp c ms) := by
  induction ms generalizing c with
  | nil => exact .refl _
  | cons m ms ih =>
    simp only [tilesFrom, gapsFrom, List.cons_append]
    refine List.perm_middle.trans (.cons m ?_)
    exact ((ih m.upper).append_left _).trans (List.perm_append_comm_assoc ..)

/-- Tiles from one cut to the next, and from there on. -/
theorem Tiles.append {a b c : Cut α} {is js : List (Interval α)} (his : Tiles cmp a is b)
    (hjs : Tiles cmp b js c) : Tiles cmp a (is ++ js) c := by
  induction is generalizing a with
  | nil =>
    obtain rfl : a = b := his
    exact hjs
  | cons i is ih =>
    obtain ⟨hlower, hlt, hrest⟩ := his
    exact ⟨hlower, hlt, ih hrest⟩

variable [Std.TransCmp cmp]

/-- No tile starts before the first one. -/
theorem Tiles.le_lower {a b : Cut α} {is : List (Interval α)} (h : Tiles cmp a is b) :
    ∀ i ∈ is, Cut.le cmp a i.lower := by
  induction is generalizing a with
  | nil => simp
  | cons i is ih =>
    obtain ⟨rfl, hlt, hrest⟩ := h
    refine List.forall_mem_cons.mpr ⟨Cut.le_refl _, fun j hj => ?_⟩
    have hle := ih hrest j hj
    grind

/-- The lower cuts increase. -/
theorem Tiles.increasing {a b : Cut α} {is : List (Interval α)} (h : Tiles cmp a is b) :
    Increasing cmp is := by
  induction is generalizing a with
  | nil => exact List.Pairwise.nil
  | cons i is ih =>
    obtain ⟨rfl, hlt, hrest⟩ := h
    refine List.Pairwise.cons (fun j hj => ?_) (ih hrest)
    have hle := hrest.le_lower j hj
    grind

/-- There is only one order in which intervals can be laid: two of them with the same lower cut are
    one. -/
theorem Tiles.eq_of_perm {a b : Cut α} {is js : List (Interval α)} (h : Tiles cmp a is b)
    (hperm : js.Perm is) (hsorted : js.Pairwise fun i j => Cut.le cmp i.lower j.lower) :
    js = is := by
  have hincreasing := h.increasing
  have hdistinct : is.Pairwise fun i j => ¬ (Cut.le cmp i.lower j.lower ∧
      Cut.le cmp j.lower i.lower) :=
    hincreasing.imp fun hlt => by grind
  have : Std.Symm fun i j : Interval α => ¬ (Cut.le cmp i.lower j.lower ∧
      Cut.le cmp j.lower i.lower) :=
    ⟨fun _ _ h hle => h hle.symm⟩
  refine hperm.eq_of_pairwise (fun i j hi hj hij hji => ?_) hsorted
    (hincreasing.imp fun hlt => by grind)
  by_contra hne
  exact hdistinct.forall (hperm.mem_iff.mp hi) hj hne ⟨hij, hji⟩

variable [Std.LawfulEqCmp cmp]

/-- What is between two cuts is one tile, or none if the cuts are at the same place. -/
theorem tiles_keepNonempty {a b : Cut α} (h : Cut.le cmp a b) :
    Tiles cmp a (keepNonempty cmp ⟨a, b⟩) b := by
  unfold keepNonempty
  split
  · next hempty =>
    -- Nothing lies between two cuts that are the same.
    rw [Interval.isEmpty_iff] at hempty
    have hsame : Cut.same cmp a b := by grind
    exact Cut.eq_of_same hsame
  · next hempty =>
    rw [Bool.not_eq_true, Interval.isEmpty_eq_false_iff] at hempty
    exact ⟨rfl, hempty, rfl⟩

/-- By induction on the members: up to the next member there is a gap or nothing, and the rest goes
    on where the member ends. -/
theorem tiles_tilesFrom {ms : List (Interval α)} (hms : Normal cmp ms) {c : Cut α}
    (hc : ∀ m ∈ ms, Cut.le cmp c m.lower) : Tiles cmp c (tilesFrom cmp c ms) .top := by
  induction ms generalizing c with
  | nil => exact tiles_keepNonempty (Cut.le_top c)
  | cons m ms ih =>
    rw [List.forall_mem_cons] at hc
    obtain ⟨htail, hstart⟩ := hms.of_cons
    exact (tiles_keepNonempty hc.1).append ⟨rfl, hms.nonempty m (List.mem_cons_self ..),
      ih htail hstart⟩

/-- The members and the gaps of a set, sorted by their lower cuts, go from the first cut to the last
    one. -/
theorem tiles_byLower {s : IntervalSet α} (hcmp : s.cmp = cmp) (hs : Normal cmp s.members) :
    Tiles cmp .bottom (byLower cmp (s.members ++ s.gaps)) .top := by
  have htiles := tiles_tilesFrom hs fun m _ => Cut.bottom_le m.lower
  have hperm : (byLower cmp (s.members ++ s.gaps)).Perm (tilesFrom cmp .bottom s.members) := by
    unfold gaps
    rw [hcmp]
    exact (List.mergeSort_perm _ _).trans (tilesFrom_perm .bottom s.members).symm
  have hsorted : (byLower cmp (s.members ++ s.gaps)).Pairwise fun i j =>
      Cut.le cmp i.lower j.lower := by
    refine List.pairwise_mergeSort (fun i j k hij hjk => ?_) (fun i j => ?_) _
    · exact Cut.le_trans hij hjk
    · grind
  rw [htiles.eq_of_perm hperm hsorted]
  exact htiles

end Allotment.IntervalSet
