import Allotment.Proofs.Number
import Allotment.Proofs.Pool.Admission
import Allotment.Proofs.Pool.Labelling
import Allotment.Proofs.Pool.Vlan

namespace Allotment.VlanPool

/-!
# Blocks of VLAN ids

A sized request names a block of ids by its start and its size.  The end of the block is a sum of
words, which may exceed a word, and the room in a free interval is a difference of words.  Both
answer as exact numbers would:

* `FreeFrom`, `isWithin` — the ids of a block as exact numbers;
* `admissible_block_iff`, `wraps_or_exact` — a block can be asked for when it lies between the
  reserved ids, and a block whose end exceeds a word ends before it starts;
* `Exact`, `run_sizedExact` — so sized requests are met, and change ids, as their exact blocks say;
* `Fenced.freeFrom_iff` — the free intervals are the longest ones, so a free block lies in one of
  them;
* `FirstFit`, `run_firstFit` — so the first free block that is found is the one with the least
  start.
-/

/-- All of the `size` ids from `start` on are free. -/
def FreeFrom (p : VlanPool) (start size : Int) : Prop :=
  ∀ n, start ≤ n → n < start + size → ∃ v : Int64, v.toInt = n ∧ p.isFree v

/-- Whether an id is one of the `size` ids from `start` on. -/
def isWithin (start size : Int) (v : Int64) : Bool :=
  decide (start ≤ v.toInt ∧ v.toInt < start + size)

/-- A block whose end is not wrapped around has as many ids as its size says. -/
theorem contains_block_eq {a b : Int64} {size : Int} (hb : b.toInt = a.toInt + size) (v : Int64) :
    (block a b).contains v = isWithin a.toInt size v := by
  rw [Bool.eq_iff_iff, contains_block, hb, isWithin, decide_eq_true_iff]

/-- A number between two words is a word. -/
theorem exists_toInt_of_between {a b : Int64} {n : Int} (hlow : a.toInt ≤ n) (hup : n < b.toInt) :
    ∃ v : Int64, v.toInt = n :=
  Word.exists_toInt_eq (a.le_toInt.trans hlow) (hup.trans b.toInt_lt)

/-- The ids of a block that ends within a word are those of its range. -/
theorem freeFrom_iff_block (p : VlanPool) {a b : Int64} {size : Int}
    (hb : b.toInt = a.toInt + size) :
    FreeFrom p a.toInt size ↔ ∀ v, (block a b).contains v → p.isFree v := by
  simp only [contains_block, hb]
  constructor
  · rintro h v ⟨hlow, hup⟩
    obtain ⟨w, hw, hfree⟩ := h v.toInt hlow hup
    rwa [← Int64.toInt_inj.mp hw]
  · intro h n hlow hup
    obtain ⟨v, rfl⟩ := exists_toInt_of_between hlow (hb ▸ hup)
    exact ⟨v, rfl, h v ⟨hlow, hup⟩⟩

/-! ### The end of a block -/

/-- The end of a block is exact, or exceeds a word and comes out before the start. -/
theorem wraps_or_exact (start size : Int64) (hsize : 1 ≤ size.toInt) :
    (start + size).toInt = start.toInt + size.toInt ∨
      (start + size).toInt < start.toInt ∧ 4095 < start.toInt + size.toInt := by
  have hstart := start.toInt_lt
  have hsize' := size.toInt_lt
  have hmin := start.le_toInt
  -- What exceeds a word is one word too small, and the size makes up for less than that.
  rw [Int64.toInt_add, Int.bmod]
  split <;> omega

/-- A block can be asked for exactly when it has an id and lies between the reserved ids. -/
theorem admissible_block_iff (a b : Int64) :
    Pool.Admissible (block 0 4096) .int64 check (block a b) ↔
      2 ≤ a.toInt ∧ a.toInt < b.toInt ∧ b.toInt ≤ 4095 := by
  have hcanonical : (block a b).canonical .int64 = block a b := rfl
  constructor
  · intro h
    obtain ⟨v, hv⟩ := h.inhabited
    rw [contains_block] at hv
    have hlt : a.toInt < b.toInt := by omega
    -- The block contains its first id, so that is one of the pool; and it contains no reserved id.
    have hids : 0 ≤ a.toInt ∧ a.toInt < 4096 :=
      (contains_block 0 4096 a).mp (h.inside a ((contains_block a b a).mpr ⟨le_rfl, hlt⟩))
    have hfree : ∀ w : ReservedVlan, ¬ (a.toInt ≤ w.id.toInt ∧ w.id.toInt < b.toInt) := by
      intro w
      rw [← contains_block, Bool.not_eq_true]
      exact (check_eq_none_iff _).mp (hcanonical ▸ h.passes) w
    have huntagged : ¬ (a.toInt ≤ 0 ∧ 0 < b.toInt) := hfree .untagged
    have hdefault : ¬ (a.toInt ≤ 1 ∧ 1 < b.toInt) := hfree .default
    have hlast : ¬ (a.toInt ≤ 4095 ∧ 4095 < b.toInt) := hfree .last
    omega
  · rintro ⟨hstart, hlt, hend⟩
    have hcut : Cut.lt Order.int64 (.below a) (.below b) := (Cut.below_lt_below a b).mpr hlt
    refine ⟨Interval.isValid_of_lt hcut, rfl, ⟨a, (contains_block a b a).mpr ⟨le_rfl, hlt⟩⟩,
      fun v hv => ?_, ?_⟩
    · have hids : 0 ≤ v.toInt ∧ v.toInt < 4096 := by
        rw [contains_block] at hv
        omega
      exact (contains_block 0 4096 v).mpr hids
    · rw [hcanonical, check_eq_none_iff]
      intro w
      have hw := toInt_id w
      rw [← Bool.not_eq_true, contains_block]
      omega

/-- A block by start and size can be asked for exactly when its exact ids lie between the reserved
    ones. -/
theorem admissible_sized_iff (start size : Int64) (hsize : 1 ≤ size.toInt) :
    Pool.Admissible (block 0 4096) .int64 check (block start (start + size)) ↔
      2 ≤ start.toInt ∧ start.toInt + size.toInt ≤ 4095 := by
  rw [admissible_block_iff]
  rcases wraps_or_exact start size hsize with hend | hend <;> omega

/-- Such a block has its exact end. -/
theorem toInt_end {start size : Int64} (hsize : 1 ≤ size.toInt)
    (hend : start.toInt + size.toInt ≤ 4095) : (start + size).toInt = start.toInt + size.toInt := by
  rcases wraps_or_exact start size hsize with hexact | ⟨-, hlarge⟩
  · exact hexact
  · omega

/-! ### Sized requests -/

/-- A change of the range of a block that ends within a word is a change of its ids. -/
theorem Fenced.relabelled_of_settled {p : VlanPool} (hp : Fenced p) {a b : Int64} {size : Int}
    (hb : b.toInt = a.toInt + size) {passes : Range Int64 → Prop} {labels : Option Labels}
    {x : Attempt VlanPool (ClaimError Int64 ReservedVlan) Unit}
    (hx : Pool.Settled Order.int64 passes
      (fun _ v => (some (block a b)).any (·.contains v)) labels p x)
    (hok : x.answer = .ok ()) :
    Pool.Relabelled (fun _ => True) (isWithin a.toInt size) labels p x.state := by
  have habout : (fun v => (some (block a b)).any (·.contains v)) = isWithin a.toInt size :=
    funext (contains_block_eq hb)
  rw [← habout]
  exact hx.relabelled hp.within.sound hok

/-- What is asked by start and size is done to the exact block of ids, if that lies between the
    reserved ids, and is refused otherwise. -/
structure Exact (p : VlanPool) (start size : Int64) : Prop where
  claim_iff : ∀ labels, (p.claimSized start size labels).answer = .ok () ↔
    1 ≤ size.toInt ∧ 2 ≤ start.toInt ∧ start.toInt + size.toInt ≤ 4095 ∧
      FreeFrom p start.toInt size.toInt
  claimed : ∀ labels, (p.claimSized start size labels).answer = .ok () →
    Pool.Relabelled (fun _ => True) (isWithin start.toInt size.toInt) (some labels) p
      (p.claimSized start size labels).state
  claim_refused : ∀ labels e, (p.claimSized start size labels).answer = .error e →
    (p.claimSized start size labels).state = p
  release_iff : (p.releaseSized start size).answer = .ok () ↔
    1 ≤ size.toInt ∧ 2 ≤ start.toInt ∧ start.toInt + size.toInt ≤ 4095
  released : (p.releaseSized start size).answer = .ok () →
    Pool.Relabelled (fun _ => True) (isWithin start.toInt size.toInt) none p
      (p.releaseSized start size).state
  release_refused : ∀ e, (p.releaseSized start size).answer = .error e →
    (p.releaseSized start size).state = p

/-- A request about a block by start and size, made of a request about ranges. -/
def onBlock (p : VlanPool) (start size : Int64)
    (f : VlanPool → Range Int64 → Attempt VlanPool (ClaimError Int64 ReservedVlan) Unit) :
    Attempt VlanPool SizeError Unit :=
  (Attempt.ofExcept p (sized start size)).andThen fun p r => (f p r).mapError .claim

theorem claimSized_eq_onBlock (p : VlanPool) (start size : Int64) (labels : Labels) :
    p.claimSized start size labels = p.onBlock start size fun p r => p.claimRange (some r) labels :=
  rfl

theorem releaseSized_eq_onBlock (p : VlanPool) (start size : Int64) :
    p.releaseSized start size = p.onBlock start size fun p r => p.releaseRange (some r) :=
  rfl

/-- Only the size is checked beforehand. -/
theorem onBlock_eq (p : VlanPool) (start size : Int64)
    (f : VlanPool → Range Int64 → Attempt VlanPool (ClaimError Int64 ReservedVlan) Unit) :
    p.onBlock start size f =
      if size.toInt < 1 then .refuse p (.badSize size)
      else (f p (block start (start + size))).mapError .claim := by
  unfold onBlock sized
  split <;> rfl

/-- A request on a block is met when the size is positive and the request for the range is met. -/
theorem onBlock_answer_iff {p : VlanPool} {start size : Int64}
    {f : VlanPool → Range Int64 → Attempt VlanPool (ClaimError Int64 ReservedVlan) Unit} :
    (p.onBlock start size f).answer = .ok () ↔
      1 ≤ size.toInt ∧ (f p (block start (start + size))).answer = .ok () := by
  rw [onBlock_eq]
  split
  · next hsize =>
    simp only [Attempt.refuse_answer, reduceCtorEq, false_iff, not_and]
    omega
  · next hsize =>
    rw [Attempt.mapError_answer_eq_ok, and_iff_right (by omega)]

section

variable {p : VlanPool} {start size : Int64} {passes : Range Int64 → Prop} {labels : Option Labels}
  {f : VlanPool → Range Int64 → Attempt VlanPool (ClaimError Int64 ReservedVlan) Unit}

/-- A request about a block that is met is about the exact ids, since a block whose end exceeds a
    word is refused. -/
theorem onBlock_relabelled (hp : Fenced p)
    (hf : Pool.Settled Order.int64 passes
      (fun _ v => (some (block start (start + size))).any (·.contains v)) labels p
      (f p (block start (start + size))))
    (hend : start.toInt + size.toInt ≤ 4095) (h : (p.onBlock start size f).answer = .ok ()) :
    Pool.Relabelled (fun _ => True) (isWithin start.toInt size.toInt) labels p
      (p.onBlock start size f).state := by
  obtain ⟨hsize, hok⟩ := onBlock_answer_iff.mp h
  rw [onBlock_eq, if_neg (by omega)]
  exact hp.relabelled_of_settled (toInt_end hsize hend) hf hok

/-- A request on a block that is refused changes nothing. -/
theorem onBlock_refused {about : Unit → Int64 → Bool}
    (hf : Pool.Settled Order.int64 passes about labels p (f p (block start (start + size))))
    {e : SizeError} (h : (p.onBlock start size f).answer = .error e) :
    (p.onBlock start size f).state = p := by
  rw [onBlock_eq] at h ⊢
  split
  · rfl
  · next hsize =>
    rw [if_neg hsize] at h
    rcases hf with ⟨e', hrefuse⟩ | ⟨_, c, p', hdone, -⟩
    · rw [hrefuse]
      rfl
    · rw [hdone] at h
      cases h

end

namespace Fenced

variable {p : VlanPool}

/-- All pools of VLAN ids admit the same ranges. -/
theorem admissible_iff (hp : Fenced p) (r : Range Int64) :
    Pool.Admissible p.bounds p.domain (Pool.check p) r ↔
      Pool.Admissible (block 0 4096) .int64 check r := by
  rw [hp.within.bounds, hp.within.domain, hp.within.check]

/-- A block between the reserved ids is claimed exactly when its ids are free. -/
theorem claimRange_answer_iff (hp : Fenced p) (a b : Int64) (labels : Labels) :
    (p.claimRange (some (block a b)) labels).answer = .ok () ↔
      Pool.Admissible (block 0 4096) .int64 check (block a b) ∧
        ∀ v, (block a b).contains v → p.isFree v := by
  rw [Pool.claimRange_answer_iff hp.within.sound rfl, hp.admissible_iff]
  refine and_congr_right fun hadm => forall₂_congr fun v hv => ?_
  have hbounds : p.bounds.contains v := hp.within.bounds ▸ hadm.inside v hv
  rw [Pool.isFree_iff, Bool.not_eq_true, and_iff_right hbounds]

/-- Claiming a block of ids, by start and size. -/
theorem claimRange_sized_iff (hp : Fenced p) {start size : Int64} (hsize : 1 ≤ size.toInt)
    (labels : Labels) :
    (p.claimRange (some (block start (start + size))) labels).answer = .ok () ↔
      2 ≤ start.toInt ∧ start.toInt + size.toInt ≤ 4095 ∧ FreeFrom p start.toInt size.toInt := by
  rw [hp.claimRange_answer_iff, admissible_sized_iff start size hsize, and_assoc]
  refine and_congr_right fun _ => and_congr_right fun hend => ?_
  rw [freeFrom_iff_block p (toInt_end hsize hend)]

/-- A claim with a size is met exactly when its ids are not reserved and all free. -/
theorem claimSized_answer_iff (hp : Fenced p) (start size : Int64) (labels : Labels) :
    (p.claimSized start size labels).answer = .ok () ↔
      1 ≤ size.toInt ∧ 2 ≤ start.toInt ∧ start.toInt + size.toInt ≤ 4095 ∧
        FreeFrom p start.toInt size.toInt := by
  rw [claimSized_eq_onBlock, onBlock_answer_iff]
  exact and_congr_right fun hsize => hp.claimRange_sized_iff hsize labels

/-- A release with a size is met exactly when its ids are not reserved, free or not. -/
theorem releaseSized_answer_iff (hp : Fenced p) (start size : Int64) :
    (p.releaseSized start size).answer = .ok () ↔
      1 ≤ size.toInt ∧ 2 ≤ start.toInt ∧ start.toInt + size.toInt ≤ 4095 := by
  rw [releaseSized_eq_onBlock, onBlock_answer_iff]
  refine and_congr_right fun hsize => ?_
  rw [Pool.releaseRange_answer_iff hp.within.sound rfl, hp.admissible_iff,
    admissible_sized_iff start size hsize]

/-- Claims and releases with a size are exact in every pool of VLAN ids. -/
theorem exact (hp : Fenced p) (start size : Int64) : Exact p start size := by
  have hread := Range.Optional.readIn_some (cmp_block start (start + size))
  have hclaim := Pool.claimRange_cases hp.within.sound.toBalanced hread
  have hrelease := Pool.releaseRange_cases hp.within.sound.toBalanced hread
  refine ⟨hp.claimSized_answer_iff start size, fun labels h => ?_, fun labels e h => ?_,
    hp.releaseSized_answer_iff start size, fun h => ?_, fun e h => ?_⟩
  · obtain ⟨-, -, hend, -⟩ := (hp.claimSized_answer_iff start size labels).mp h
    rw [claimSized_eq_onBlock] at h ⊢
    exact onBlock_relabelled hp (hclaim labels) hend h
  · rw [claimSized_eq_onBlock] at h ⊢
    exact onBlock_refused (hclaim labels) h
  · obtain ⟨-, -, hend⟩ := (hp.releaseSized_answer_iff start size).mp h
    rw [releaseSized_eq_onBlock] at h ⊢
    exact onBlock_relabelled hp hrelease hend h
  · rw [releaseSized_eq_onBlock] at h ⊢
    exact onBlock_refused hrelease h

end Fenced

/-- **Sized requests are exact.**  After any requests, with any ids, sizes and labels, met or
    refused: for every start and every size that a word can have, a block is claimed exactly when
    its size is positive, its ids are between the reserved ones and all of them are free, and
    released exactly when its size is positive and its ids are between the reserved ones.  Then
    these ids, and no others, get the labels or become free.  What is refused changes nothing.  All
    sums are those of exact numbers, although the end of a block is computed as a word. -/
theorem run_sizedExact (qs : List Request) :
    ∃ p, VlanPool.run initial qs = some p ∧ ∀ start size, Exact p start size := by
  obtain ⟨p, hrun, hp⟩ := exists_fenced qs
  exact ⟨p, hrun, hp.exact⟩

/-- All ids from 7 on can be claimed as one block; a block from the greatest word on, whose end
    exceeds a word, cannot be released. -/
theorem sampleVlans_exact :
    ∃ p, VlanPool.run initial sampleVlans = some p ∧ FreeFrom p 7 4088 ∧
      (p.releaseSized 9223372036854775807 4095).answer ≠ .ok () := by
  have hanswer : (VlanPool.run initial sampleVlans).map (fun p =>
      (p.claimSized 7 4088 (.ofStrings [])).answer.toOption) = some (some ()) := by cbv
  obtain ⟨p, hrun, hexact⟩ := run_sizedExact sampleVlans
  rw [hrun] at hanswer
  have hok := Answer.eq_ok_of_toOption (Option.some.inj hanswer)
  refine ⟨p, hrun, (((hexact 7 4088).claim_iff _).mp hok).2.2.2, fun hrelease => ?_⟩
  exact absurd (((hexact _ _).release_iff).mp hrelease) (by decide)

/-! ### The room for a block -/

namespace Fenced

variable {p : VlanPool} {a b : Int64}

/-- The room in a free interval is a difference that does not exceed a word. -/
theorem blockAt?_eq (hp : Fenced p) (hm : (block a b).toInterval ∈ p.free.members) (size : Int64) :
    blockAt? size (block a b).toInterval =
      if a.toInt + size.toInt ≤ b.toInt then some (block a (a + size)) else none := by
  obtain ⟨ha, hlt, hb⟩ := hp.between_of_mem hm
  have hroom : (b - a).toInt = b.toInt - a.toInt := Word.toInt_sub_of_le (by omega) hlt.le
  refine if_congr ?_ rfl rfl
  show size.toInt ≤ (b - a).toInt ↔ _
  omega

/-- The free ids are held as a normal set. -/
theorem normal_free (hp : Fenced p) : IntervalSet.Normal Order.int64 p.free.members := by
  obtain ⟨c, -, hfree, hc⟩ := hp.exists_unclaimed
  rw [hfree]
  exact hc.sound.normal

/-- The free ids are those of the free intervals. -/
theorem isFree_iff_covers (hp : Fenced p) (v : Int64) :
    p.isFree v ↔ IntervalSet.Covers Order.int64 p.free.members (.below v) := by
  obtain ⟨c, -, hfree, hc⟩ := hp.exists_unclaimed
  rw [hc.isFree_iff hp.within.sound.toBalanced, hc.sound.contains_iff, hfree]

/-- A free block lies in one free interval: the id at which a free interval ends is not free. -/
theorem freeFrom_iff (hp : Fenced p) {start size : Int} (hsize : 1 ≤ size) : FreeFrom p start size ↔
    ∃ a b, (block a b).toInterval ∈ p.free.members ∧ a.toInt ≤ start ∧ start + size ≤ b.toInt := by
  constructor
  · intro h
    obtain ⟨v, rfl, hv⟩ := h start le_rfl (by omega)
    obtain ⟨m, hm, hspan⟩ := (hp.isFree_iff_covers v).mp hv
    obtain ⟨a, b, rfl⟩ := hp.exists_block hm
    rw [spans_block] at hspan
    refine ⟨a, b, hm, hspan.1, ?_⟩
    -- Otherwise the end of the interval is an id of the block, hence free; but no free interval has
    -- it.
    by_contra hlong
    obtain ⟨w, hw, hfree⟩ := h b.toInt (by omega) (by omega)
    rw [Int64.toInt_inj.mp hw, hp.isFree_iff_covers] at hfree
    exact hp.normal_free.not_covers_upper hm hfree
  · rintro ⟨a, b, hm, hlow, hup⟩ n hstart hend
    obtain ⟨v, rfl⟩ := exists_toInt_of_between (hlow.trans hstart) (hend.trans_le hup)
    refine ⟨v, rfl, (hp.isFree_iff_covers v).mpr ⟨_, hm, (spans_block a b v).mpr ?_⟩⟩
    omega

/-- Free ids are not reserved. -/
theorem between_of_freeFrom (hp : Fenced p) {start size : Int} (hsize : 1 ≤ size)
    (h : FreeFrom p start size) : 2 ≤ start ∧ start + size ≤ 4095 := by
  obtain ⟨a, b, hm, hlow, hup⟩ := (hp.freeFrom_iff hsize).mp h
  obtain ⟨ha, -, hb⟩ := hp.between_of_mem hm
  exact ⟨ha.trans hlow, hup.trans hb⟩

/-! ### The first free block -/

/-- The first free interval with room for a block has the free block with the least start, since the
    free intervals stand in order. -/
theorem isLeast_of_findSome? (hp : Fenced p) {size : Int64} (hsize : 1 ≤ size.toInt)
    {r : Range Int64} (h : p.free.members.findSome? (blockAt? size) = some r) :
    ∃ start : Int64, r = block start (start + size) ∧
      IsLeast {n | FreeFrom p n size.toInt} start.toInt := by
  obtain ⟨before, m, after, hsplit, hfound, hnone⟩ := List.findSome?_eq_some_iff.mp h
  have hm : m ∈ p.free.members := by simp [hsplit]
  obtain ⟨a, b, rfl⟩ := hp.exists_block hm
  obtain ⟨-, hlt, -⟩ := hp.between_of_mem hm
  rw [hp.blockAt?_eq hm, Option.ite_none_right_eq_some, Option.some.injEq] at hfound
  obtain ⟨hroom, rfl⟩ := hfound
  refine ⟨a, rfl, (hp.freeFrom_iff hsize).mpr ⟨a, b, hm, le_rfl, hroom⟩, fun n hn => ?_⟩
  obtain ⟨a', b', hm', hlow, hup⟩ := (hp.freeFrom_iff hsize).mp hn
  have hplace := hm'
  rw [hsplit, List.mem_append, List.mem_cons] at hplace
  rcases hplace with hbefore | hsame | hafter
  · -- An earlier interval has no room for the block.
    have hskip := hnone _ hbefore
    rw [hp.blockAt?_eq hm', if_pos (by omega)] at hskip
    cases hskip
  · obtain ⟨⟨⟩, -⟩ := Interval.mk.inj hsame
    exact hlow
  · have hapart := hp.normal_free.apart
    rw [hsplit, List.pairwise_append, List.pairwise_cons] at hapart
    have hgap := (Cut.below_lt_below b a').mp (hapart.2.1.1 _ hafter)
    omega

/-- Where no free interval has room for a block, there is no free block. -/
theorem not_freeFrom_of_findSome? (hp : Fenced p) {size : Int64} (hsize : 1 ≤ size.toInt)
    (h : p.free.members.findSome? (blockAt? size) = none) (n : Int) :
    ¬ FreeFrom p n size.toInt := by
  intro hn
  obtain ⟨a, b, hm, hlow, hup⟩ := (hp.freeFrom_iff hsize).mp hn
  have hskip := List.findSome?_eq_none_iff.mp h _ hm
  rw [hp.blockAt?_eq hm, if_pos (by omega)] at hskip
  cases hskip

/-- What the search for a free block answers. -/
theorem freeBlock_cases (hp : Fenced p) (size : Int64) :
    (size.toInt < 1 ∧ p.freeBlock size = .error (.badSize size)) ∨
    (1 ≤ size.toInt ∧ p.freeBlock size = .error (.noBlock size) ∧ ∀ n, ¬ FreeFrom p n size.toInt) ∨
    (1 ≤ size.toInt ∧ ∃ start : Int64, p.freeBlock size = .ok (block start (start + size)) ∧
      IsLeast {n | FreeFrom p n size.toInt} start.toInt) := by
  unfold freeBlock
  split
  · next hsize => exact Or.inl ⟨hsize, rfl⟩
  · next hsize =>
    rw [not_lt] at hsize
    right
    split
    · next r hfound =>
      obtain ⟨start, rfl, hleast⟩ := hp.isLeast_of_findSome? hsize hfound
      exact Or.inr ⟨hsize, start, rfl, hleast⟩
    · next hnone => exact Or.inl ⟨hsize, rfl, hp.not_freeFrom_of_findSome? hsize hnone⟩

/-- A block that is found starts at the least id with enough free ids from there on. -/
theorem freeBlock_eq_ok_iff (hp : Fenced p) (size : Int64) (r : Range Int64) :
    p.freeBlock size = .ok r ↔
      1 ≤ size.toInt ∧ ∃ start : Int64, r = block start (start + size) ∧
        IsLeast {n | FreeFrom p n size.toInt} start.toInt := by
  rcases hp.freeBlock_cases size with ⟨hsize, hbad⟩ | ⟨hsize, hnone, hfree⟩
    | ⟨hsize, start, hfound, hleast⟩
  · rw [hbad]
    exact iff_of_false (by simp) fun h => by omega
  · rw [hnone]
    refine iff_of_false (by simp) ?_
    rintro ⟨-, start, -, hleast⟩
    exact hfree _ hleast.1
  · rw [hfound, Except.ok.injEq]
    constructor
    · rintro rfl
      exact ⟨hsize, start, rfl, hleast⟩
    · -- There is only one least id, so the block is the one that was found.
      rintro ⟨-, start', rfl, hleast'⟩
      rw [Int64.toInt_inj.mp (hleast.unique hleast')]

/-- No block is found for a size that is not positive or that nowhere fits. -/
theorem freeBlock_eq_error_iff (hp : Fenced p) (size : Int64) (e : SizeError) :
    p.freeBlock size = .error e ↔
      size.toInt < 1 ∧ e = .badSize size ∨
      (1 ≤ size.toInt ∧ ∀ n, ¬ FreeFrom p n size.toInt) ∧ e = .noBlock size := by
  rcases hp.freeBlock_cases size with ⟨hsize, hbad⟩ | ⟨hsize, hnone, hfree⟩
    | ⟨hsize, start, hfound, hleast⟩
  · have hsize' : ¬ 1 ≤ size.toInt := by omega
    simp only [hbad, Except.error.injEq, hsize, hsize', true_and, false_and, or_false]
    exact eq_comm
  · have hsize' : ¬ size.toInt < 1 := by omega
    simp only [hnone, Except.error.injEq, hsize, hsize', true_and, false_and, false_or, hfree,
      not_false_eq_true, implies_true]
    exact eq_comm
  · rw [hfound]
    refine iff_of_false (by simp) ?_
    rintro (⟨hsize', -⟩ | ⟨⟨-, hfree⟩, -⟩)
    · omega
    · exact hfree _ hleast.1

/-! ### Claiming the first free block -/

/-- A block that is found free can be claimed. -/
theorem claimBlock_of_ok (hp : Fenced p) {size : Int64} {r : Range Int64}
    (h : p.freeBlock size = .ok r) (labels : Labels) :
    (p.claimRange (some r) labels).answer = .ok () ∧
      p.claimBlock size labels = .done (p.claimRange (some r) labels).state r := by
  have hok : (p.claimRange (some r) labels).answer = .ok () := by
    obtain ⟨hsize, start, rfl, hleast⟩ := (hp.freeBlock_eq_ok_iff size r).mp h
    obtain ⟨hstart, hend⟩ := hp.between_of_freeFrom hsize hleast.1
    exact (hp.claimRange_sized_iff hsize labels).mpr ⟨hstart, hend, hleast.1⟩
  refine ⟨hok, ?_⟩
  rw [claimBlock, h, Attempt.ofExcept_ok, Attempt.andThen_done, Attempt.andThen,
    Attempt.mapError_answer_eq_ok.mpr hok]
  rfl

end Fenced

/-- When no block is found, none is claimed. -/
theorem claimBlock_of_error {p : VlanPool} {size : Int64} {e : SizeError}
    (h : p.freeBlock size = .error e) (labels : Labels) :
    p.claimBlock size labels = .refuse p e := by
  rw [claimBlock, h]
  rfl

/-- The search for a free block finds the one with the least start, if there is any, and that one is
    claimed. -/
structure FirstFit (p : VlanPool) (size : Int64) : Prop where
  error_iff : ∀ e, p.freeBlock size = .error e ↔
    size.toInt < 1 ∧ e = .badSize size ∨
      (1 ≤ size.toInt ∧ ∀ n, ¬ FreeFrom p n size.toInt) ∧ e = .noBlock size
  ok_iff : ∀ r, p.freeBlock size = .ok r ↔
    1 ≤ size.toInt ∧ ∃ start : Int64, r = block start (start + size) ∧
      IsLeast {n | FreeFrom p n size.toInt} start.toInt
  exact_end : ∀ start, p.freeBlock size = .ok (block start (start + size)) →
    (start + size).toInt = start.toInt + size.toInt
  answer : ∀ labels, (p.claimBlock size labels).answer = p.freeBlock size
  claimed : ∀ labels start, p.freeBlock size = .ok (block start (start + size)) →
    Pool.Relabelled (fun _ => True) (isWithin start.toInt size.toInt) (some labels) p
      (p.claimBlock size labels).state
  claims : ∀ labels r, p.freeBlock size = .ok r → ∀ e,
    e ∈ (p.claimBlock size labels).state.claims ↔ e = ⟨r, labels⟩ ∨ e ∈ p.claims
  refused : ∀ labels e, p.freeBlock size = .error e → (p.claimBlock size labels).state = p

/-- The first block that fits is found and claimed in every pool of VLAN ids. -/
theorem Fenced.firstFit {p : VlanPool} (hp : Fenced p) (size : Int64) : FirstFit p size := by
  have hbalanced := hp.within.sound.toBalanced
  have hend : ∀ start, p.freeBlock size = .ok (block start (start + size)) →
      (start + size).toInt = start.toInt + size.toInt := by
    intro start h
    obtain ⟨hsize, start', heq, hleast⟩ := (hp.freeBlock_eq_ok_iff size _).mp h
    obtain ⟨⟨⟩, -⟩ := Interval.mk.inj (congrArg Range.toInterval heq)
    exact toInt_end hsize (hp.between_of_freeFrom hsize hleast.1).2
  refine ⟨hp.freeBlock_eq_error_iff size, hp.freeBlock_eq_ok_iff size, hend, fun labels => ?_,
    fun labels start h => ?_, fun labels r h e => ?_, fun labels e h => ?_⟩
  · -- The claim on the block that was found is met, so only the search can fail.
    cases h : p.freeBlock size with
    | ok r => rw [(hp.claimBlock_of_ok h labels).2, Attempt.done_answer]
    | error e => rw [claimBlock_of_error h, Attempt.refuse_answer]
  · obtain ⟨hok, hdone⟩ := hp.claimBlock_of_ok h labels
    have hread := Range.Optional.readIn_some (cmp_block start (start + size))
    have hsettled := Pool.claimRange_cases hbalanced hread labels
    rw [hdone, Attempt.done_state]
    exact hp.relabelled_of_settled (hend start h) hsettled hok
  · obtain ⟨hok, hdone⟩ := hp.claimBlock_of_ok h labels
    obtain ⟨-, start, rfl, -⟩ := (hp.freeBlock_eq_ok_iff size r).mp h
    rw [hdone, Attempt.done_state, Pool.mem_claims_of_claimRange hbalanced rfl hok]
    rfl
  · rw [claimBlock_of_error h, Attempt.refuse_state]

/-- **The first free block is found, and it can be claimed.**  After any requests, with any ids,
    sizes and labels, met or refused, the search for `size` free ids fails for a size that is not
    positive; fails otherwise exactly when no block of this size is free, wherever it starts; and
    else finds the block with the least start.  Claiming such a block answers as the search does.
    If it is met, exactly the ids of the block get the labels, and the claim on the block stands
    beside the claims from before; if it is refused, nothing changes. -/
theorem run_firstFit (qs : List Request) :
    ∃ p, VlanPool.run initial qs = some p ∧ ∀ size, FirstFit p size := by
  obtain ⟨p, hrun, hp⟩ := exists_fenced qs
  exact ⟨p, hrun, hp.firstFit⟩

/-- The free ids are 4, 5 and those from 7 on: three of them in a row start at 7, and there are not
    4089 in a row. -/
theorem sampleVlans_firstFit :
    ∃ p, VlanPool.run initial sampleVlans = some p ∧ p.freeBlock 3 = .ok (block 7 10) ∧
      IsLeast {n | FreeFrom p n 3} 7 ∧ ∀ n, ¬ FreeFrom p n 4089 := by
  have hfound : (VlanPool.run initial sampleVlans).map
      (fun p => (p.freeBlock 3, p.freeBlock 4089)) =
      some (.ok (block 7 10), .error (.noBlock 4089)) := by cbv
  obtain ⟨p, hrun, hfit⟩ := run_firstFit sampleVlans
  rw [hrun] at hfound
  obtain ⟨hthree, hmany⟩ := Prod.mk.inj (Option.some.inj hfound)
  obtain ⟨-, start, heq, hleast⟩ := ((hfit 3).ok_iff _).mp hthree
  obtain ⟨⟨⟩, -⟩ := Interval.mk.inj (congrArg Range.toInterval heq)
  refine ⟨p, hrun, hthree, hleast, ?_⟩
  rcases ((hfit 4089).error_iff _).mp hmany with ⟨hsize, -⟩ | ⟨⟨-, hnone⟩, -⟩
  · exact absurd hsize (by decide)
  · exact hnone

end Allotment.VlanPool
