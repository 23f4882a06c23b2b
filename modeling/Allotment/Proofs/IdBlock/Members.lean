import Allotment.Proofs.Answer
import Allotment.Proofs.IdBlock.Cover
import Allotment.Proofs.IntervalSet.Algebra

namespace Allotment.IdBlock

/-!
# The blocks of a set of ids

A set of ids is taken interval by interval, and each interval comes to the fewest blocks there are
for it.  Intervals of a set may hold ids that follow one another, so all the blocks together may be
more than the set needs, and two sets with the same ids may come to different blocks.  They are the
fewest exactly when no block of the set's ids reaches over more than one of its intervals; then they
depend on the ids alone.

* `Fewest`, `Undivided` — what it means that no list of blocks is shorter, and that no block is
  divided among intervals;
* `Separate` — sets without ids that follow one another in different intervals;
* `Tiled` — the dyadic blocks of ranges, taken one by one, with `exists_tiled` by induction over the
  ranges;
* `Tiled.fewest_iff_greatest`, `Tiled.undivided_iff_greatest` — both say that there is room for no
  larger block;
* `ofView_fewest_iff_undivided` — when the blocks of a set are the fewest.
-/

variable {bitSize : UInt8} {w : View Int64} {L : List IdBlock}

/-- No list of blocks of the space with the ids of the set is shorter. -/
def Fewest (bitSize : UInt8) (w : View Int64) (L : List IdBlock) : Prop :=
  ∀ M : List IdBlock, (∀ p ∈ M, ∃ id length, make id length bitSize = .ok p) →
    (∀ v, (∃ p ∈ M, p.range.contains v) ↔ w.contains v) → L.length ≤ M.length

/-- A block of the space with ids of the set has them from one of its intervals. -/
def Undivided (bitSize : UInt8) (w : View Int64) : Prop :=
  ∀ id length p, make id length bitSize = .ok p → (∀ v, p.range.contains v → w.contains v) →
    ∃ r ∈ w.ranges, ∀ v, p.range.contains v → r.contains v

/-- A number of the set and the one after it are in one of its intervals. -/
def Separate (w : View Int64) : Prop :=
  ∀ r ∈ w.ranges, ∀ s ∈ w.ranges, ∀ u v : Int64, r.contains u → s.contains v →
    v.toInt = u.toInt + 1 → r = s

/-! ### The intervals of a set -/

/-- The numbers of one range come before those of the other. -/
def Before (r s : Range Int64) : Prop :=
  ∀ u v, r.contains u → s.contains v → u.toInt < v.toInt

/-- An interval that ends before another one starts has the lesser ids. -/
theorem before_of_lt {m n : Interval Int64} (h : Cut.lt Order.int64 m.upper n.lower) :
    Before ⟨m, Order.int64⟩ ⟨n, Order.int64⟩ := by
  intro u v hu hv
  have hu := (Interval.contains_iff_spans m u).mp hu
  have hv := (Interval.contains_iff_spans n v).mp hv
  unfold Interval.Spans at hu hv
  rw [← Cut.below_lt_below]
  grind

section

variable (hw : w.Sound Order.int64)

include hw

/-- All ranges of the set are read in the order of the ids. -/
theorem cmp_of_mem_ranges {r : Range Int64} (hr : r ∈ w.ranges) : r.cmp = Order.int64 := by
  obtain ⟨m, -, rfl⟩ := List.mem_map.mp hr
  exact hw.order

/-- The set contains what one of its ranges contains. -/
theorem contains_iff_exists_ranges (v : Int64) : w.contains v ↔ ∃ r ∈ w.ranges, r.contains v := by
  have horder : w.cmp = Order.int64 := hw.order
  rw [hw.contains_iff, View.ranges, horder]
  simp only [List.mem_map, exists_exists_and_eq_and]
  exact exists_congr fun m => and_congr_right fun _ => (Interval.contains_iff_spans m v).symm

/-- The ranges of the set stand in the order of their ids. -/
theorem pairwise_before_ranges : w.ranges.Pairwise Before := by
  have horder : w.cmp = Order.int64 := hw.order
  rw [View.ranges, horder, List.pairwise_map]
  exact hw.intervals.apart.imp before_of_lt

/-- Where intervals end before numbers, the number at such an end is in none of them. -/
theorem separate_of_halfOpen (hhalf : ∀ r ∈ w.ranges, r.upper.HalfOpen) : Separate w := by
  have horder : w.cmp = Order.int64 := hw.order
  rw [View.ranges, horder] at hhalf
  rw [Separate, View.ranges, horder]
  simp only [List.forall_mem_map] at hhalf ⊢
  intro m hm n hn u v hu hv hnext
  rcases hw.intervals.eq_or_apart hm hn with rfl | hapart | hapart
  · rfl
  · have hupper := (Interval.contains_iff_position m u).mp hu
    have hlower := (Interval.contains_iff_position n v).mp hv
    have hne : m.upper ≠ .bottom := by
      intro hbottom
      have hle := u.le_toInt
      rw [hbottom, Cut.position_bottom] at hupper
      omega
    -- The next id is where `m` ends, so `n` starts there at the latest, and the two are connected.
    have hle : Cut.le Order.int64 n.lower m.upper := ((hhalf m hm).le_iff_position hne _).mpr
      (by omega)
    grind
  · have hlt := before_of_lt hapart v u hv hu
    omega

end

/-! ### Range by range -/

/-- The ids of a range. -/
def idsOf (r : Range Int64) : Nat → Prop :=
  Held fun v => r.contains v

/-- Dyadic blocks that make up the ids of `S`, each of them from one of the ranges, and that leave
    room for no larger one in any of the ranges. -/
structure Tiled (S : Int64 → Prop) (rs : List (Range Int64)) (K : List Dyadic.Block) : Prop where
  tiles : Dyadic.Tiles (Held S) K
  within : ∀ B ∈ K, ∃ r ∈ rs, ∀ n, B.Has n → idsOf r n
  greatest : ∀ r ∈ rs, Dyadic.Greatest (idsOf r) K

/-- The blocks of one range tile its ids, and no greater block has room between them. -/
theorem Fits.exists_tiles {r : Range Int64} (h : Fits bitSize r) (hr : r.cmp = Order.int64) :
    ∃ K, ofRange (some r) bitSize = .ok (K.map (ofDyadic bitSize)) ∧ Dyadic.Tiles (idsOf r) K ∧
      Dyadic.Greatest (idsOf r) K := by
  obtain ⟨hnone, heq⟩ | ⟨a, c, hends, heq⟩ := h.nil_or_cover hr
  · have hempty : ∀ n, ¬ idsOf r n := fun n ⟨v, _, hv⟩ => hnone v hv
    exact ⟨[], heq, ⟨by simp, .nil, by simp [hempty]⟩,
      fun D _ hin => absurd (hin _ D.has_start) (hempty _)⟩
  · refine ⟨_, heq, hends.tiles hends.covers, fun D hD hin => ?_⟩
    exact hends.covers.greatest D hD fun n hn => (hends.held_iff n).mp (hin n hn)

/-- A range that fits has no ids outside the space. -/
theorem Fits.inSpace {r : Range Int64} (h : Fits bitSize r) (hr : r.cmp = Order.int64) :
    InSpace bitSize fun v => r.contains v := by
  intro v hv
  have hpositions := h.position_le
  have hv := (Range.contains_iff_position hr v).mp hv
  exact ⟨h.size, by omega, by omega⟩

/-- By induction over the ranges: the blocks of a range come before those of all later ones. -/
theorem exists_tiled {rs : List (Range Int64)} {Ls : List (List IdBlock)}
    (h : List.Forall₂ (fun r L => ofRange (some r) bitSize = .ok L) rs Ls)
    (hcmp : ∀ r ∈ rs, r.cmp = Order.int64) (hbefore : rs.Pairwise Before) :
    ∃ K, Ls.flatten = K.map (ofDyadic bitSize) ∧ Tiled (fun v => ∃ r ∈ rs, r.contains v) rs K := by
  induction h with
  | nil => exact ⟨[], rfl, ⟨by simp, .nil, by simp [Held]⟩, by simp, by simp⟩
  | @cons r L rs Ls hL _ ih =>
    rw [List.forall_mem_cons] at hcmp
    rw [List.pairwise_cons] at hbefore
    obtain ⟨K, heq, htiles, hgreatest⟩ := (fits_of_eq_ok hL).exists_tiles hcmp.1
    obtain rfl := Except.ok.inj (hL.symm.trans heq)
    obtain ⟨K', heq', htiled⟩ := ih hcmp.2 hbefore.2
    -- All ids of the first range come before those of the others, so the two tilings follow on each
    -- other.
    have hlt : ∀ m n, idsOf r m → Held (fun v => ∃ s ∈ rs, s.contains v) n → m < n := by
      rintro m n ⟨u, hu, hru⟩ ⟨v, hv, s, hs, hsv⟩
      have hlt := hbefore.1 s hs u v hru hsv
      omega
    refine ⟨K ++ K', ?_, ?_, ?_, ?_⟩
    · rw [List.flatten_cons, heq', List.map_append]
    · refine (htiles.append htiled.tiles hlt).of_iff fun n => ?_
      simp only [idsOf, Held, List.exists_mem_cons_iff, ← exists_or, ← and_or_left]
    · intro B hB
      rcases List.mem_append.mp hB with hB | hB
      · exact ⟨r, List.mem_cons_self, fun n hn => htiles.of_mem hB hn⟩
      · obtain ⟨s, hs, hin⟩ := htiled.within B hB
        exact ⟨s, List.mem_cons_of_mem r hs, hin⟩
    · rw [List.forall_mem_cons]
      refine ⟨fun D hD hin => ?_, fun s hs D hD hin => ?_⟩
      · obtain ⟨B, hB, hsub⟩ := hgreatest D hD hin
        exact ⟨B, List.mem_append_left K' hB, hsub⟩
      · obtain ⟨B, hB, hsub⟩ := htiled.greatest s hs D hD hin
        exact ⟨B, List.mem_append_right K hB, hsub⟩

/-- The blocks of a set are those of its intervals, which are ids of one space. -/
theorem exists_tiled_of_ofView (hw : w.Sound Order.int64) (h : ofView w bitSize = .ok L) :
    ∃ K, L = K.map (ofDyadic bitSize) ∧ Tiled (fun v => w.contains v) w.ranges K ∧
      InSpace bitSize fun v => w.contains v := by
  obtain ⟨Ls, hLs, hL⟩ := Answer.bind_eq_ok.mp h
  obtain rfl := Except.ok.inj hL
  have hforall := Answer.mapM_eq_ok_iff.mp hLs
  obtain ⟨K, heq, htiled⟩ := exists_tiled hforall (fun r hr => cmp_of_mem_ranges hw hr)
    (pairwise_before_ranges hw)
  have hsame := contains_iff_exists_ranges hw
  simp only [← hsame] at htiled
  refine ⟨K, heq, htiled, fun v hv => ?_⟩
  obtain ⟨r, hr, hrv⟩ := (hsame v).mp hv
  obtain ⟨L, hL⟩ := Answer.exists_mapM_eq_ok_iff.mp ⟨Ls, hLs⟩ r hr
  exact (fits_of_eq_ok hL).inSpace (cmp_of_mem_ranges hw hr) v hrv

namespace Tiled

variable {K : List Dyadic.Block}

/-- The blocks of a set are the fewest when there is room for no larger one. -/
theorem fewest_iff_greatest (hK : Tiled (fun v => w.contains v) w.ranges K)
    (hin : InSpace bitSize fun v => w.contains v) :
    Fewest bitSize w (K.map (ofDyadic bitSize)) ↔
      Dyadic.Greatest (Held fun v => w.contains v) K := by
  unfold Fewest
  rw [List.length_map]
  constructor
  · intro hfewest
    -- Any list of aligned blocks with these numbers is a list of blocks that can be made.
    refine hK.tiles.greatest_of_fewest fun M hM hhas => ?_
    have hle := hfewest (M.map (ofDyadic bitSize)) (fun p hp => ⟨_, _, hin.made_ofDyadic hhas p hp⟩)
      (hin.contains_ofDyadic_iff hM hhas)
    rwa [List.length_map] at hle
  · intro hgreatest M hmade hsame
    have hhas := has_block_iff (proper_of_made hmade) hsame
    exact length_le_of_has_block hK.tiles hgreatest hhas

/-- A block that is divided among intervals lies within none of the blocks, and there is no other
    such block. -/
theorem undivided_iff_greatest (hK : Tiled (fun v => w.contains v) w.ranges K)
    (hin : InSpace bitSize fun v => w.contains v) :
    Undivided bitSize w ↔ Dyadic.Greatest (Held fun v => w.contains v) K := by
  constructor
  · intro hundivided D hD hset
    obtain ⟨hsize, hle⟩ := hin.le_size hset
    have hp := proper_ofDyadic hsize hle
    have hblock := block_ofDyadic hD hsize hle
    rw [← hblock] at hset
    -- The block can be made, so it lies in one range, and there a block of the tiling has it.
    obtain ⟨r, hr, hrange⟩ := hundivided _ _ _ (make_eq_ok_iff.mpr ⟨rfl, hp⟩)
      (hp.forall_has_iff.mp hset)
    refine hK.greatest r hr D hD ?_
    rw [← hblock]
    exact hp.forall_has_iff.mpr hrange
  · intro hgreatest id length p hmake hset
    have hp := (make_eq_ok_iff.mp hmake).2
    obtain ⟨B, hB, hsub⟩ := hgreatest p.block p.aligned_block (hp.forall_has_iff.mpr hset)
    obtain ⟨r, hr, hwithin⟩ := hK.within B hB
    exact ⟨r, hr, hp.forall_has_iff.mp fun n hn => hwithin n (hsub n hn)⟩

/-- In a set without ids that follow one another in different intervals, a block is not divided: by
    induction over its numbers, they are all in the interval of the first one. -/
theorem greatest_of_separate (hw : w.Sound Order.int64)
    (hK : Tiled (fun v => w.contains v) w.ranges K) (hseparate : Separate w) :
    Dyadic.Greatest (Held fun v => w.contains v) K := by
  intro D hD hset
  obtain ⟨u, hu, hcontains⟩ := hset _ D.has_start
  obtain ⟨r, hr, hru⟩ := (contains_iff_exists_ranges hw u).mp hcontains
  -- From the first number on, each one is in the same range as the one before it.
  have hall : ∀ n, D.start ≤ n → D.Has n → idsOf r n := by
    intro n hn
    induction n, hn using Nat.le_induction with
    | base => exact fun _ => ⟨u, hu, hru⟩
    | succ n hn ih =>
      intro hhas
      obtain ⟨v, hv, hrv⟩ := ih ⟨hn, (Nat.lt_succ_self n).trans hhas.2⟩
      obtain ⟨x, hx, hcontains⟩ := hset _ hhas
      obtain ⟨s, hs, hsx⟩ := (contains_iff_exists_ranges hw x).mp hcontains
      obtain rfl := hseparate r hr s hs v x hrv hsx (by omega)
      exact ⟨x, hx, hsx⟩
  exact hK.greatest r hr D hD fun n hn => hall n hn.1 hn

end Tiled

/-- **When the blocks of a set are the fewest.**  The blocks of a set in the natural order are
    aligned blocks of the space, strictly increasing, with the ids of the set.  No list of blocks
    with these ids is shorter exactly when no block of them is divided among intervals of the set.
    So it is when no interval goes on where another one ends, and always when the intervals end
    before numbers, as in half-open form.  Two sets with the same ids for which the blocks are the
    fewest have the same blocks. -/
theorem ofView_fewest_iff_undivided (hw : w.Reachable Order.int64) (h : ofView w bitSize = .ok L) :
    Composes bitSize (fun v => w.contains v) L ∧ (Fewest bitSize w L ↔ Undivided bitSize w) ∧
      (Separate w → Fewest bitSize w L) ∧ ((∀ r ∈ w.ranges, r.upper.HalfOpen) → Separate w) ∧
      ∀ w' L', w'.Reachable Order.int64 → ofView w' bitSize = .ok L' →
        (∀ v, w.contains v = w'.contains v) →
        Fewest bitSize w L → Fewest bitSize w' L' → L = L' := by
  have hsound := hw.sound
  obtain ⟨K, rfl, htiled, hin⟩ := exists_tiled_of_ofView hsound h
  have hfewest := htiled.fewest_iff_greatest hin
  refine ⟨hin.composes htiled.tiles, hfewest.trans (htiled.undivided_iff_greatest hin).symm,
    fun hseparate => hfewest.mpr (htiled.greatest_of_separate hsound hseparate),
    separate_of_halfOpen hsound, ?_⟩
  intro w' L' hw' h' hsame hL hL'
  obtain ⟨K', rfl, htiled', hin'⟩ := exists_tiled_of_ofView hw'.sound h'
  have hgreatest := hfewest.mp hL
  have hgreatest' := (htiled'.fewest_iff_greatest hin').mp hL'
  have htiles := htiled.tiles
  simp only [hsame] at htiles hgreatest
  rw [htiles.eq_of_greatest hgreatest htiled'.tiles hgreatest']

/-- A set in mixed forms, a set with two intervals that hold the ids from 0 to 3, and one with a
    single such interval. -/
def sampleIds : List (Store.Request Int64) :=
  [.make Order.int64 [some ⟨⟨.above 0, .below 6⟩, Order.int64⟩, some ⟨.closed 8 9, Order.int64⟩],
    .make Order.int64 [some ⟨.closed 0 1, Order.int64⟩, some ⟨.closed 2 3, Order.int64⟩],
    .make Order.int64 [some ⟨.closed 0 3, Order.int64⟩]]

/-- One of the sample sets. -/
def sampleIdSet (n : Nat) : View Int64 :=
  (((Store.empty : Store Int64).run sampleIds).view? ⟨n, .inside⟩).getD (View.whole Order.int64)

/-- The sample sets are made by requests. -/
theorem reachable_sampleIdSet {n : Nat} (hlt : n < 3) : (sampleIdSet n).Reachable Order.int64 := by
  refine ⟨sampleIds, ⟨n, .inside⟩, by simp [sampleIds, Store.Request.ReadIn], ?_⟩
  have hn : n = 0 ∨ n = 1 ∨ n = 2 := by omega
  rcases hn with rfl | rfl | rfl
  · rfl
  · rfl
  · rfl

/-- Two ranges that are apart, the first of them open at its start: no list of blocks is shorter. -/
theorem sampleIdSet_fewest :
    (sampleIdSet 0).Reachable Order.int64 ∧
      ofView (sampleIdSet 0) 12 = .ok [⟨1, 12, 12⟩, ⟨2, 11, 12⟩, ⟨4, 11, 12⟩, ⟨8, 11, 12⟩] ∧
      Separate (sampleIdSet 0) ∧
      Fewest 12 (sampleIdSet 0) [⟨1, 12, 12⟩, ⟨2, 11, 12⟩, ⟨4, 11, 12⟩, ⟨8, 11, 12⟩] := by
  have hw := reachable_sampleIdSet (n := 0) (by decide)
  have hblocks : ofView (sampleIdSet 0) 12 = .ok [⟨1, 12, 12⟩, ⟨2, 11, 12⟩, ⟨4, 11, 12⟩,
      ⟨8, 11, 12⟩] := by
    have hsplit : ofView (sampleIdSet 0) 12 = .ok (split 12 1 5 ++ (split 12 8 9 ++ [])) := rfl
    rw [hsplit, split_eq, split_eq]
    rfl
  have hseparate : Separate (sampleIdSet 0) := by
    have hranges : (sampleIdSet 0).ranges =
        [⟨⟨.above 0, .below 6⟩, Order.int64⟩, ⟨⟨.below 8, .above 9⟩, Order.int64⟩] := rfl
    have hsix : (6 : Int64).toInt = 6 := rfl
    have height : (8 : Int64).toInt = 8 := rfl
    rw [Separate, hranges]
    simp only [List.forall_mem_cons, List.not_mem_nil, false_implies, implies_true, and_true,
      true_and, Range.contains_iff_position, Cut.position_below, Cut.position_above, hsix, height]
    refine ⟨fun u v hu hv hnext => ?_, fun u v hu hv hnext => ?_⟩
    · omega
    · omega
  obtain ⟨-, -, hfewest, -⟩ := ofView_fewest_iff_undivided hw hblocks
  exact ⟨hw, hblocks, hseparate, hfewest hseparate⟩

/-- The ids from 0 to 3 are one block; in two intervals they come to two blocks, in one interval to
    the one. -/
theorem abutting_not_fewest :
    (sampleIdSet 1).Reachable Order.int64 ∧ (sampleIdSet 2).Reachable Order.int64 ∧
      ofView (sampleIdSet 1) 12 = .ok [⟨0, 11, 12⟩, ⟨2, 11, 12⟩] ∧
      ofView (sampleIdSet 2) 12 = .ok [⟨0, 10, 12⟩] ∧
      (∀ v, (sampleIdSet 1).contains v = (sampleIdSet 2).contains v) ∧
      ¬ Fewest 12 (sampleIdSet 1) [⟨0, 11, 12⟩, ⟨2, 11, 12⟩] := by
  have hw := reachable_sampleIdSet (n := 1) (by decide)
  have hw' := reachable_sampleIdSet (n := 2) (by decide)
  have hids : ∀ v, (sampleIdSet 1).contains v ↔ 0 ≤ v.toInt ∧ v.toInt ≤ 3 := by
    intro v
    rw [contains_iff_exists_ranges hw.sound]
    show (∃ r ∈ [⟨⟨.below 0, .above 1⟩, Order.int64⟩, ⟨⟨.below 2, .above 3⟩, Order.int64⟩],
      Range.contains r v) ↔ _
    simp only [List.mem_cons, List.not_mem_nil, or_false, exists_eq_or_imp, exists_eq_left,
      Range.contains_iff_position, Cut.position_below, Cut.position_above]
    show 0 ≤ v.toInt ∧ v.toInt < 2 ∨ 2 ≤ v.toInt ∧ v.toInt < 4 ↔ _
    omega
  -- Both sets have the four ids from zero on, but only this one has them in one range.
  have hids' : ∀ v, (sampleIdSet 2).contains v ↔ 0 ≤ v.toInt ∧ v.toInt ≤ 3 := by
    intro v
    rw [contains_iff_exists_ranges hw'.sound]
    show (∃ r ∈ [⟨⟨.below 0, .above 3⟩, Order.int64⟩], Range.contains r v) ↔ _
    simp only [List.mem_singleton, exists_eq_left, Range.contains_iff_position, Cut.position_below,
      Cut.position_above]
    show 0 ≤ v.toInt ∧ v.toInt < 4 ↔ _
    omega
  refine ⟨hw, hw', ?_, ?_, fun v => ?_, fun hfewest => ?_⟩
  · have hsplit : ofView (sampleIdSet 1) 12 = .ok (split 12 0 1 ++ (split 12 2 3 ++ [])) := rfl
    rw [hsplit, split_eq, split_eq]
    rfl
  · have hsplit : ofView (sampleIdSet 2) 12 = .ok (split 12 0 3 ++ []) := rfl
    rw [hsplit, split_eq]
    rfl
  · rw [Bool.eq_iff_iff, hids, hids']
  · have hle := hfewest [⟨0, 10, 12⟩] ?_ fun v => ?_
    · exact absurd hle (by decide)
    · simp only [List.mem_singleton, forall_eq]
      exact ⟨0, 10, rfl⟩
    · simp only [List.mem_singleton, exists_eq_left, contains_range_iff_le, hids]
      exact Iff.rfl

end Allotment.IdBlock
