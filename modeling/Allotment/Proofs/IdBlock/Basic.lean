import Allotment.IdBlock
import Allotment.Proofs.Dyadic
import Allotment.Proofs.Number

namespace Allotment

/-!
# The ids of a block

Ids are signed words, and the bits of a block are cleared and set in unsigned ones.  As long as the
ids are those of a space, nothing is lost on the way: the first and the last id of a block, and all
between them, are what they are among the natural numbers.

* `Word.toNat_toUInt64`, `Word.toInt_eq_toNat` — a word as a signed and as an unsigned number;
* `Word.toNat_and_not` — clearing the lowest bits of a word;
* `IdBlock.toInt_mask` — a mask is one less than a power of two, up to 63 bits;
* `IdBlock.Proper`, `IdBlock.make_eq_ok_iff` — the blocks that can be made;
* `IdBlock.block` — a block of ids as a dyadic block, with `IdBlock.Proper.contains_range_iff`.
-/

/-! ### Signed and unsigned words -/

namespace Word

/-- A word as a number with a sign, from its value without one. -/
theorem toInt_eq (v : Int64) :
    v.toInt = if v.toUInt64.toNat < 9223372036854775808 then (v.toUInt64.toNat : Int)
      else v.toUInt64.toNat - 18446744073709551616 := by
  have hcond : v.toInt = if 2 * v.toUInt64.toNat < 2 ^ 64 then (v.toUInt64.toNat : Int)
      else v.toUInt64.toNat - (2 ^ 64 : Nat) := BitVec.toInt_eq_toNat_cond v.toBitVec
  rw [hcond]
  split <;> split <;> omega

/-- A word that is not negative is the same number without a sign. -/
theorem toNat_toUInt64 {v : Int64} (hv : 0 ≤ v.toInt) : (v.toUInt64.toNat : Int) = v.toInt := by
  have hlt := v.toUInt64.toNat_lt
  rw [toInt_eq] at hv ⊢
  split at hv <;> omega

/-- A word in the lower half is the same number with and without a sign. -/
theorem toInt_eq_toNat {v : Int64} (hv : v.toUInt64.toNat < 9223372036854775808) :
    v.toInt = v.toUInt64.toNat := by
  rw [toInt_eq, if_pos hv]

/-- Clearing the lowest bits of a word leads to the start of its stretch. -/
theorem toNat_and_not {w c : UInt64} {h : Nat} (hc : c.toNat = Dyadic.size h - 1) :
    (w &&& ~~~c).toNat = w.toNat - w.toNat % Dyadic.size h := by
  have hnot : (~~~c).toNat = 2 ^ 64 - (c.toNat + 1) := by
    rw [UInt64.toNat_not]
    show 2 ^ 64 - 1 - c.toNat = _
    omega
  rw [Dyadic.sub_mod_eq, UInt64.toNat_and, hnot]
  rw [Dyadic.size_eq] at hc ⊢
  apply Nat.eq_of_testBit_eq
  intro i
  rw [Nat.testBit_and, Nat.testBit_two_pow_sub_succ c.toNat_lt, hc, Nat.testBit_two_pow_sub_one,
    Nat.testBit_two_pow_mul, Nat.testBit_div_two_pow]
  by_cases hi : h ≤ i
  · -- The bits past the word are not set.
    rw [Nat.sub_add_cancel hi]
    by_cases hi' : i < 64
    · simp [hi, hi']
    · have hlt : w.toNat < 2 ^ i := Nat.lt_of_lt_of_le w.toNat_lt
        (Nat.pow_le_pow_right (by decide) (by omega))
      simp [Nat.testBit_eq_false_of_lt hlt]
  · have hlt : i < h := by omega
    simp [hi, hlt]

end Word

namespace IdBlock

/-! ### Masks -/

/-- The numbers of bits that an id can have. -/
theorem isBitSize_iff (b : UInt8) : isBitSize b ↔ 1 ≤ b.toNat ∧ b.toNat ≤ 63 := by
  have hzero : b ≠ 0 ↔ b.toNat ≠ 0 := not_congr UInt8.toNat_inj.symm
  have hmax : b ≤ maxBitSize ↔ b.toNat ≤ 63 := UInt8.le_iff_toNat_le
  rw [isBitSize, Bool.and_eq_true, bne_iff_ne, decide_eq_true_iff, hzero, hmax]
  omega

/-- No block of ids is greater than half the words. -/
theorem size_le_of_le {h : Nat} (hh : h ≤ 63) : Dyadic.size h ≤ 9223372036854775808 :=
  Dyadic.size_le_size hh

/-- A mask is one less than a power of two, also that of 63 bits, where the power itself is not a
    word. -/
theorem toInt_mask {bits : UInt8} (h : bits.toNat ≤ 63) :
    (mask bits).toInt = Dyadic.size bits.toNat - 1 := by
  have hnat : (mask bits).toUInt64.toNat = Dyadic.size bits.toNat - 1 := toNat_mask (by omega)
  have hle := size_le_of_le h
  have hpos := Dyadic.size_pos bits.toNat
  rw [Word.toInt_eq_toNat (by omega), hnat]
  omega

/-- The greatest id is the greatest number with the bits of an id. -/
theorem toInt_maxId {b : UInt8} (hb : isBitSize b) : (maxId b).toInt = Dyadic.size b.toNat - 1 :=
  toInt_mask ((isBitSize_iff b).mp hb).2

/-! ### Blocks that can be made -/

/-- A block of an id space. -/
structure Proper (p : IdBlock) : Prop where
  bitSize : isBitSize p.bitSize
  length : p.length.toNat ≤ p.bitSize.toNat
  nonneg : 0 ≤ p.id.toInt
  lt : p.id.toInt < Dyadic.size p.bitSize.toNat

/-- The blocks that can be made are those of the id spaces. -/
theorem make_eq_ok_iff {id : Int64} {length bitSize : UInt8} {p : IdBlock} :
    make id length bitSize = .ok p ↔ p = ⟨id, length, bitSize⟩ ∧ p.Proper := by
  unfold make
  split
  · next hsize =>
    simp only [reduceCtorEq, false_iff, not_and]
    rintro rfl hp
    simp [hp.bitSize] at hsize
  next hsize =>
    have hsize : isBitSize bitSize := by simpa using hsize
    -- The three checks that may refuse, one after another; `Proper` says of each that it does not.
    have hmax := toInt_maxId hsize
    split
    · next hlength =>
      simp only [reduceCtorEq, false_iff, not_and]
      rintro rfl hp
      exact absurd hp.length (Nat.not_le.mpr (UInt8.lt_iff_toNat_lt.mp hlength))
    next hlength =>
      have hlength : length.toNat ≤ bitSize.toNat := UInt8.le_iff_toNat_le.mp
        (UInt8.not_lt.mp hlength)
      split
      · next hid =>
        rw [Bool.or_eq_true, decide_eq_true_iff, decide_eq_true_iff] at hid
        simp only [reduceCtorEq, false_iff, not_and]
        rintro rfl hp
        have hnonneg := hp.nonneg
        have hlt := hp.lt
        simp only at hnonneg hlt
        omega
      · next hid =>
        rw [Bool.or_eq_true, decide_eq_true_iff, decide_eq_true_iff] at hid
        rw [Except.ok.injEq]
        constructor
        · rintro rfl
          exact ⟨rfl, hsize, hlength, by simp only; omega, by simp only; omega⟩
        · rintro ⟨rfl, -⟩
          rfl

/-- Blocks that were made are proper. -/
theorem proper_of_made {bitSize : UInt8} {M : List IdBlock}
    (hM : ∀ p ∈ M, ∃ id length, make id length bitSize = .ok p) : ∀ p ∈ M, p.Proper := by
  intro p hp
  obtain ⟨id, length, hmake⟩ := hM p hp
  exact (make_eq_ok_iff.mp hmake).2

/-! ### The first and the last id -/

/-- The number of bits that are free within a block. -/
def hosts (p : IdBlock) : Nat :=
  p.bitSize.toNat - p.length.toNat

/-- A block has no more host bits than an id has bits. -/
theorem hosts_le (p : IdBlock) : p.hosts ≤ p.bitSize.toNat :=
  Nat.sub_le ..

/-- The ids of a block, as a stretch of natural numbers. -/
def block (p : IdBlock) : Dyadic.Block :=
  ⟨p.id.toUInt64.toNat - p.id.toUInt64.toNat % Dyadic.size p.hosts, p.hosts⟩

/-- The block of an id starts at a multiple of its size. -/
theorem aligned_block (p : IdBlock) : p.block.Aligned := by
  show Dyadic.size p.hosts ∣ p.id.toUInt64.toNat - p.id.toUInt64.toNat % Dyadic.size p.hosts
  rw [Dyadic.sub_mod_eq]
  exact Dvd.intro _ rfl

/-- The ids in the range of a block are those from its first to its last one. -/
theorem contains_range_iff_le (p : IdBlock) (v : Int64) :
    p.range.contains v ↔ p.first.toInt ≤ v.toInt ∧ v.toInt ≤ p.last.toInt := by
  have hlower : p.range.lower.position = p.first.toInt := Cut.position_canonical (.below p.first)
  have hupper : p.range.upper.position = p.last.toInt + 1 := Cut.position_canonical (.above p.last)
  rw [Range.contains_iff_position rfl, hlower, hupper, Int.lt_add_one_iff]

namespace Proper

variable {p : IdBlock}

/-- The difference of the two lengths does not wrap around. -/
theorem toNat_hosts (hp : p.Proper) : (p.bitSize - p.length).toNat = p.hosts :=
  UInt8.toNat_sub_of_le _ _ (UInt8.le_iff_toNat_le.mpr hp.length)

/-- The mask of the host bits is the greatest number that fits in them. -/
theorem toNat_hostMask (hp : p.Proper) : p.hostMask.toUInt64.toNat = Dyadic.size p.hosts - 1 := by
  have hle := p.hosts_le
  have hsize := (isBitSize_iff _).mp hp.bitSize
  rw [hostMask, toNat_mask (by rw [hp.toNat_hosts]; omega), hp.toNat_hosts]

/-- The id of a proper block is a number in the space of the ids. -/
theorem toNat_id_lt (hp : p.Proper) : p.id.toUInt64.toNat < Dyadic.size p.bitSize.toNat := by
  have hlt := hp.lt
  rw [← Word.toNat_toUInt64 hp.nonneg] at hlt
  exact_mod_cast hlt

/-- The ids of a block lie in its space. -/
theorem block_le (hp : p.Proper) :
    p.block.start + Dyadic.size p.hosts ≤ Dyadic.size p.bitSize.toNat := by
  obtain ⟨k, hk⟩ := Dyadic.size_dvd_size p.hosts_le
  have hpos := Dyadic.size_pos p.hosts
  have hquot : p.id.toUInt64.toNat / Dyadic.size p.hosts < k := by
    rw [Nat.div_lt_iff_lt_mul hpos, Nat.mul_comm, ← hk]
    exact hp.toNat_id_lt
  show p.id.toUInt64.toNat - p.id.toUInt64.toNat % Dyadic.size p.hosts + Dyadic.size p.hosts ≤ _
  rw [Dyadic.sub_mod_eq, hk, ← Nat.mul_succ]
  exact Nat.mul_le_mul_left _ hquot

/-- The first id is where the block starts. -/
theorem toNat_first (hp : p.Proper) : p.first.toUInt64.toNat = p.block.start := by
  show (p.id &&& ~~~p.hostMask).toUInt64.toNat = _
  rw [Int64.toUInt64_and, Int64.toUInt64_not]
  exact Word.toNat_and_not hp.toNat_hostMask

/-- The last id is the one before the end of the block. -/
theorem toNat_last (hp : p.Proper) :
    p.last.toUInt64.toNat = p.block.start + (Dyadic.size p.hosts - 1) := by
  have haligned : Dyadic.size p.hosts ∣ p.block.start := p.aligned_block
  rw [last, Int64.toUInt64_or, UInt64.toNat_or, hp.toNat_first, hp.toNat_hostMask,
    Dyadic.or_mask_eq, Nat.mul_div_cancel' haligned]

/-- A proper block ends before the words with a sign begin. -/
theorem block_lt (hp : p.Proper) : p.block.start + Dyadic.size p.hosts ≤ 9223372036854775808 :=
  Nat.le_trans hp.block_le (size_le_of_le ((isBitSize_iff _).mp hp.bitSize).2)

theorem toInt_first (hp : p.Proper) : p.first.toInt = p.block.start := by
  have hle := hp.block_lt
  have hpos := Dyadic.size_pos p.hosts
  rw [Word.toInt_eq_toNat (by rw [hp.toNat_first]; omega), hp.toNat_first]

theorem toInt_last (hp : p.Proper) : p.last.toInt = p.block.start + Dyadic.size p.hosts - 1 := by
  have hle := hp.block_lt
  have hpos := Dyadic.size_pos p.hosts
  rw [Word.toInt_eq_toNat (by rw [hp.toNat_last]; omega), hp.toNat_last]
  omega

/-- The range of a proper block has the ids that are in the block. -/
theorem contains_range_iff (hp : p.Proper) (v : Int64) :
    p.range.contains v ↔ 0 ≤ v.toInt ∧ p.block.Has v.toInt.toNat := by
  rw [contains_range_iff_le, hp.toInt_first, hp.toInt_last]
  show _ ↔ 0 ≤ v.toInt ∧ p.block.start ≤ v.toInt.toNat ∧
    v.toInt.toNat < p.block.start + Dyadic.size p.hosts
  omega

end Proper

end IdBlock

end Allotment
