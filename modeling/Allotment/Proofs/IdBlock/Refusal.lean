import Allotment.Proofs.IdBlock.Cover

namespace Allotment.IdBlock

/-!
# Ranges that are not made up of blocks

A range within an id space is refused when it is written with a number that is no id, although it
has none: the half-open range of a block that reaches the end of the space is one of these.  So the
range of a block leads back to the block, unless its last id is that of the space; the closed range
from its first to its last id always does.

* `Proper.ofRange_eq_singleton` — a range that fits, with the ids of one block, leads to that block;
* `Proper.namesBeyond_range_iff` — the blocks whose ranges name a number past the space;
* `ofRange_isOk_iff_not_namesBeyond` — which ranges within a space are refused.
-/

variable {bitSize : UInt8} {r : Range Int64}

/-- A range with an id and with none outside the space has its cuts at the ends of the space or
    between them. -/
theorem position_le_of_contains (hr : r.cmp = Order.int64) (hsome : ∃ v, r.contains v)
    (hin : ∀ v, r.contains v → 0 ≤ v.toInt ∧ v.toInt < 2 ^ bitSize.toNat) :
    0 ≤ r.lower.position ∧ r.upper.position ≤ 2 ^ bitSize.toNat := by
  simp only [Range.contains_iff_position hr] at hsome hin
  obtain ⟨v, hlower, hupper⟩ := hsome
  have hle := r.lower.le_position
  have hle' := r.upper.position_le
  -- The first and the last number of the range are words, so they are ids.
  obtain ⟨first, hfirst⟩ := Word.exists_toInt_eq (n := r.lower.position) (by omega) (by omega)
  obtain ⟨last, hlast⟩ := Word.exists_toInt_eq (n := r.upper.position - 1) (by omega) (by omega)
  have hfirst' := hin first ⟨by omega, by omega⟩
  have hlast' := hin last ⟨by omega, by omega⟩
  omega

/-! ### The range of a block -/

namespace Proper

variable {p : IdBlock}

/-- The last id of a proper block is in the space of the ids. -/
theorem last_le (hp : p.Proper) : p.last.toInt + 1 ≤ 2 ^ p.bitSize.toNat := by
  have hle := hp.block_le
  rw [Dyadic.size_eq p.bitSize.toNat] at hle
  zify at hle
  rw [hp.toInt_last]
  omega

/-- A block reaches the end of the space exactly when its last id is the greatest one. -/
theorem last_eq_maxId_iff (hp : p.Proper) :
    p.last = maxId p.bitSize ↔ p.last.toInt + 1 = 2 ^ p.bitSize.toNat := by
  rw [← Int64.toInt_inj, toInt_maxId hp.bitSize, Dyadic.size_eq]
  push_cast
  omega

/-- A proper block does not end before it starts. -/
theorem first_le_last (hp : p.Proper) : p.first.toInt ≤ p.last.toInt := by
  have hpos := Dyadic.size_pos p.hosts
  rw [hp.toInt_first, hp.toInt_last]
  omega

/-- A range that fits and has the ids of a block leads back to that block. -/
theorem ofRange_eq_singleton (hp : p.Proper) (hfits : Fits p.bitSize r) (hr : r.cmp = Order.int64)
    (hsame : ∀ v, p.range.contains v ↔ r.contains v) :
    ofRange (some r) p.bitSize = .ok [p.masked] := by
  obtain ⟨hnone, -⟩ | ⟨a, c, hends, heq⟩ := hfits.nil_or_cover hr
  · have hfirst := (p.contains_range_iff_le p.first).mpr ⟨le_rfl, hp.first_le_last⟩
    exact absurd ((hsame p.first).mp hfirst) (hnone p.first)
  · have hhas := hends.has_iff (M := [p]) (by simpa using hp) (by simpa using hsame)
    have hcover := hends.covers.eq_singleton p.aligned_block (by simpa using hhas)
    rw [heq, hcover, List.map_singleton, hp.ofDyadic_block]

/-- The closed range of a block fits. -/
theorem fits_closed (hp : p.Proper) : Fits p.bitSize ⟨.closed p.first p.last, Order.int64⟩ := by
  have hvalid : (⟨.closed p.first p.last, Order.int64⟩ : Range Int64).isValid :=
    Int.isLE_compare.mpr hp.first_le_last
  refine (fits_iff hp.bitSize hvalid).mpr ⟨?_, hp.last_le, ?_⟩
  · show 0 ≤ p.first.toInt
    rw [hp.toInt_first]
    exact Int.natCast_nonneg _
  · rintro (h | h | ⟨v, h, -⟩) <;> cases h

/-- The range of a proper block is valid. -/
theorem isValid_range (hp : p.Proper) : p.range.isValid := by
  have hle := hp.first_le_last
  have hempty : ((Interval.closed p.first p.last).canonical .int64).isEmpty Order.int64 =
      false := by
    rw [← Bool.not_eq_true, Interval.isEmpty_canonical_iff (by simp [Interval.closed])]
    show ¬ p.last.toInt + 1 ≤ p.first.toInt
    omega
  have hlt : Cut.lt Order.int64 p.range.lower p.range.upper :=
    (Interval.isEmpty_eq_false_iff _).mp hempty
  exact Interval.isValid_of_lt hlt

/-- The half-open range of a block names a number past the space when the block reaches its end. -/
theorem namesBeyond_range_iff (hp : p.Proper) :
    NamesBeyond p.bitSize p.range ↔ p.last = maxId p.bitSize := by
  have hposition : p.range.upper.position = p.last.toInt + 1 := Cut.position_canonical
    (.above p.last)
  have hle := hp.last_le
  have hpos : 0 ≤ (Cut.above p.last).position := by
    have hfirst := hp.first_le_last
    rw [hp.toInt_first] at hfirst
    rw [Cut.position_above]
    omega
  rw [hp.last_eq_maxId_iff]
  constructor
  · rintro (h | h | ⟨v, h, hv⟩)
    · cases h
    · -- No space has more ids than there are words.
      have hsize := size_le_of_le ((isBitSize_iff _).mp hp.bitSize).2
      rw [Dyadic.size_eq] at hsize
      zify at hsize
      rw [h, Cut.position_top] at hposition
      omega
    · rw [← hposition, h]
      exact hv
  · intro heq
    right
    by_cases hlt : p.last.toInt + 1 < 9223372036854775808
    · obtain ⟨v, hcut, hv⟩ := Cut.exists_canonical_eq_below hpos hlt
      exact .inr ⟨v, hcut, hv.trans heq⟩
    · have hlt' := p.last.toInt_lt
      have htop : (Cut.above p.last).position = 9223372036854775808 := by
        rw [Cut.position_above]
        omega
      exact .inl (Cut.canonical_eq_top htop)

/-- The range of a block fits unless it ends with the space, since it then names the id after the
    last one. -/
theorem fits_range_iff (hp : p.Proper) : Fits p.bitSize p.range ↔ p.last ≠ maxId p.bitSize := by
  have hlower : p.range.lower.position = p.first.toInt := Cut.position_canonical (.below p.first)
  have hupper : p.range.upper.position = p.last.toInt + 1 := Cut.position_canonical (.above p.last)
  rw [fits_iff hp.bitSize hp.isValid_range, hp.namesBeyond_range_iff, hlower, hupper,
    hp.toInt_first]
  exact ⟨fun h => h.2.2, fun h => ⟨Int.natCast_nonneg _, hp.last_le, h⟩⟩

end Proper

/-! ### Which ranges are refused -/

/-- **Ranges that are refused.**  A valid range is made up of blocks when its cuts are within the
    space and it names no number beyond it; in the natural order, when its numbers are ids, only the
    latter is left.  So the range of a block leads back to the block, or is refused if the block
    reaches the end of the space; its closed form is never refused. -/
theorem ofRange_isOk_iff_not_namesBeyond (hsize : isBitSize bitSize) :
    (∀ r : Range Int64, r.isValid →
      ((∃ L, ofRange (some r) bitSize = .ok L) ↔
        0 ≤ r.lower.position ∧ r.upper.position ≤ 2 ^ bitSize.toNat ∧ ¬ NamesBeyond bitSize r)) ∧
    (∀ r : Range Int64, r.cmp = Order.int64 → r.isValid → (∃ v, r.contains v) →
      (∀ v, r.contains v → 0 ≤ v.toInt ∧ v.toInt < 2 ^ bitSize.toNat) →
      ((∃ L, ofRange (some r) bitSize = .ok L) ↔ ¬ NamesBeyond bitSize r)) ∧
    ∀ id length p, make id length bitSize = .ok p →
      ofRange (some p.range) p.bitSize =
        (if p.last = maxId bitSize then .error (.outsideSpace (some p.range) bitSize)
          else .ok [p.masked]) ∧
      ofRange (some ⟨.closed p.first p.last, Order.int64⟩) p.bitSize = .ok [p.masked] := by
  have hok : ∀ r : Range Int64, (∃ L, ofRange (some r) bitSize = .ok L) ↔ Fits bitSize r := fun r =>
    ⟨fun ⟨_, h⟩ => fits_of_eq_ok h, fun h => ⟨_, h.ofRange_eq⟩⟩
  refine ⟨fun r hr => (hok r).trans (fits_iff hsize hr), fun r hcmp hr hsome hin => ?_,
    fun id length p hmake => ?_⟩
  · obtain ⟨hlower, hupper⟩ := position_le_of_contains hcmp hsome hin
    rw [hok r, fits_iff hsize hr]
    exact ⟨fun h => h.2.2, fun h => ⟨hlower, hupper, h⟩⟩
  · obtain ⟨hparts, hp⟩ := make_eq_ok_iff.mp hmake
    obtain rfl : p.bitSize = bitSize := by rw [hparts]
    refine ⟨?_, hp.ofRange_eq_singleton hp.fits_closed rfl fun v => ?_⟩
    · -- The range of a block is half-open: it names the id after the last one, which may be
      -- outside.
      by_cases hlast : p.last = maxId p.bitSize
      · rw [if_pos hlast]
        exact ofRange_of_not_fits hp.bitSize fun h => hp.fits_range_iff.mp h hlast
      · rw [if_neg hlast]
        exact hp.ofRange_eq_singleton (hp.fits_range_iff.mpr hlast) rfl fun _ => Iff.rfl
    · rw [contains_range_iff_le, Range.contains_iff_position rfl]
      exact and_congr_right fun _ => Int.lt_add_one_iff.symm

/-- The last ids of a small space, written up to the last one and up to the one after it. -/
theorem sampleSpace_isOk_iff :
    isBitSize 12 ∧
      ((∃ L, ofRange (some ⟨.closed 3840 4095, Order.int64⟩) 12 = .ok L) ↔
        ¬ NamesBeyond 12 ⟨.closed 3840 4095, Order.int64⟩) ∧
      make 3841 4 12 = .ok ⟨3841, 4, 12⟩ ∧
      ofRange (some (⟨3841, 4, 12⟩ : IdBlock).range) 12 =
        .error (.outsideSpace (some (⟨3841, 4, 12⟩ : IdBlock).range) 12) ∧
      ofRange (some ⟨.closed 3840 4095, Order.int64⟩) 12 = .ok [⟨3840, 4, 12⟩] := by
  have hsize : isBitSize 12 := rfl
  obtain ⟨-, hnatural, hmade⟩ := ofRange_isOk_iff_not_namesBeyond hsize
  obtain ⟨hrange, hclosed⟩ := hmade 3841 4 ⟨3841, 4, 12⟩ rfl
  refine ⟨hsize, hnatural _ rfl rfl ⟨3840, by decide⟩ ?_, rfl, hrange, hclosed⟩
  intro v hv
  rw [Range.contains_iff_position rfl] at hv
  change (3840 : Int) ≤ v.toInt ∧ v.toInt < 4095 + 1 at hv
  show 0 ≤ v.toInt ∧ v.toInt < 4096
  omega

/-- The block of all ids of a small space: its range has these ids and no others, and is refused. -/
theorem whole_space_refused :
    ∃ p, make 0 0 12 = .ok p ∧ p.range.isValid ∧
      (∀ v, p.range.contains v ↔ 0 ≤ v.toInt ∧ v.toInt < 2 ^ 12) ∧
      ofRange (some p.range) 12 = .error (.outsideSpace (some p.range) 12) := by
  refine ⟨⟨0, 0, 12⟩, rfl, rfl, fun v => ?_, rfl⟩
  rw [contains_range_iff_le]
  show 0 ≤ v.toInt ∧ v.toInt ≤ 4095 ↔ 0 ≤ v.toInt ∧ v.toInt < 4096
  omega

end Allotment.IdBlock
