import Allotment.Proofs.IdBlock.Basic
import Allotment.Proofs.Text.Cutting
import Allotment.Proofs.Text.Decimal

namespace Allotment

/-!
# Blocks as leading bits

A block is an id of which only the leading bits count.  Its range, which is computed with masks of
words and moved to half-open form, has exactly the ids of the space with these leading bits.  So of
two blocks with a common id the longer one lies within the shorter one.

* `Word.AgreeOn`, `Dyadic.div_size_eq_iff` — leading bits, as bits of words and as quotients;
* `IdBlock.Proper.contains_range_iff_agreeOn` — the ids of a block;
* `IdBlock.Laminar`, `IdBlock.Proper.laminar` — blocks do not overlap in part;
* `IdBlock.range_masked` — the bits past the length of a block have no effect on its ids;
* `IdBlock.Proper.parse_text` — a block is read back from its text;
* `IdBlock.BlockLaws`, `IdBlock.blockLaws_of_make` — all of this, of every block that can be made.
-/

/-! ### Leading bits -/

/-- Two numbers have the same quotient by a power of two when they have the same bits from that
    power on. -/
theorem Dyadic.div_size_eq_iff {m n h : Nat} :
    m / size h = n / size h ↔ ∀ i, h ≤ i → m.testBit i = n.testBit i := by
  rw [size_eq]
  constructor
  · intro heq i hi
    obtain ⟨k, rfl⟩ := Nat.exists_eq_add_of_le' hi
    rw [← Nat.testBit_div_two_pow, heq, Nat.testBit_div_two_pow]
  · intro hbits
    apply Nat.eq_of_testBit_eq
    intro i
    rw [Nat.testBit_div_two_pow, Nat.testBit_div_two_pow]
    exact hbits (i + h) (Nat.le_add_left h i)

/-- Two words agree in the first `length` bits of their last `width` bits. -/
def Word.AgreeOn (length width : Nat) (v w : Int64) : Prop :=
  ∀ i, width - length ≤ i → i < width → v.toBitVec.getLsbD i = w.toBitVec.getLsbD i

/-- The leading bits of two ids of a space agree when the ids have the same quotient: past the space
    there are no bits. -/
theorem Word.agreeOn_iff_div_eq {length width : Nat} {v w : Int64}
    (hv : v.toUInt64.toNat < Dyadic.size width) (hw : w.toUInt64.toNat < Dyadic.size width) :
    AgreeOn length width v w ↔
      v.toUInt64.toNat / Dyadic.size (width - length) =
        w.toUInt64.toNat / Dyadic.size (width - length) := by
  rw [Dyadic.div_size_eq_iff]
  rw [Dyadic.size_eq] at hv hw
  refine forall_congr' fun i => imp_congr_right fun _ => ?_
  constructor
  · intro hbits
    by_cases hi : i < width
    · exact hbits hi
    · have hpast : 2 ^ width ≤ 2 ^ i := Nat.pow_le_pow_right (by decide) (Nat.le_of_not_lt hi)
      rw [Nat.testBit_eq_false_of_lt (hv.trans_le hpast),
        Nat.testBit_eq_false_of_lt (hw.trans_le hpast)]
  · exact fun hbits _ => hbits

namespace IdBlock

/-! ### The ids of a block -/

/-- Blocks without a common id, or one of which has all the ids of the other. -/
def Laminar (p q : IdBlock) : Prop :=
  (∀ v, ¬ (p.range.contains v ∧ q.range.contains v)) ∨
    (∀ v, p.range.contains v → q.range.contains v) ∨ ∀ v, q.range.contains v → p.range.contains v

namespace Proper

variable {p q : IdBlock}

/-- The numbers of a block have the quotient of its id. -/
theorem block_has_iff (hp : p.Proper) (n : Nat) :
    p.block.Has n ↔ n < Dyadic.size p.bitSize.toNat ∧
      n / Dyadic.size p.hosts = p.id.toUInt64.toNat / Dyadic.size p.hosts := by
  have hquot : p.block.start / Dyadic.size p.hosts = p.id.toUInt64.toNat / Dyadic.size p.hosts := by
    show (p.id.toUInt64.toNat - p.id.toUInt64.toNat % Dyadic.size p.hosts) / Dyadic.size p.hosts = _
    rw [Dyadic.sub_mod_eq, Nat.mul_div_cancel_left _ (Dyadic.size_pos _)]
  rw [← hquot, Dyadic.Block.has_iff_div_eq p.aligned_block]
  -- The whole block lies within the space, so the quotient alone decides.
  refine (and_iff_right_of_imp fun heq => ?_).symm
  have hhas := (Dyadic.Block.has_iff_div_eq p.aligned_block n).mpr heq
  exact hhas.2.trans_le hp.block_le

/-- The ids of a block are those of the space that agree with its id in the leading bits. -/
theorem contains_range_iff_agreeOn (hp : p.Proper) (v : Int64) :
    p.range.contains v ↔ 0 ≤ v.toInt ∧ v.toInt < 2 ^ p.bitSize.toNat ∧
      Word.AgreeOn p.length.toNat p.bitSize.toNat v p.id := by
  rw [hp.contains_range_iff]
  refine and_congr_right fun hv => ?_
  -- An id that is not negative is the same number with and without its sign.
  have hnat : v.toInt.toNat = v.toUInt64.toNat := by
    have hcast := Word.toNat_toUInt64 hv
    omega
  have hlt : v.toInt < 2 ^ p.bitSize.toNat ↔ v.toUInt64.toNat < Dyadic.size p.bitSize.toNat := by
    rw [← Word.toNat_toUInt64 hv, Dyadic.size_eq]
    exact_mod_cast Iff.rfl
  rw [hp.block_has_iff, hnat, hlt]
  exact and_congr_right fun hin => (Word.agreeOn_iff_div_eq hin hp.toNat_id_lt).symm

/-- A block with an id of a block that is not less has all the ids of the lesser one. -/
theorem contains_of_hosts_le (hp : p.Proper) (hq : q.Proper) (hle : p.hosts ≤ q.hosts) {v w : Int64}
    (hpv : p.range.contains v) (hqv : q.range.contains v) (hw : p.range.contains w) :
    q.range.contains w := by
  rw [hp.contains_range_iff] at hpv hw
  rw [hq.contains_range_iff] at hqv ⊢
  exact ⟨hw.1, Dyadic.Block.has_of_le p.aligned_block q.aligned_block hle hpv.2 hqv.2 hw.2⟩

/-- Two blocks have no common id, or one of them lies within the other. -/
theorem laminar (hp : p.Proper) (hq : q.Proper) : p.Laminar q := by
  by_cases hcommon : ∃ v, p.range.contains v ∧ q.range.contains v
  · obtain ⟨v, hpv, hqv⟩ := hcommon
    rcases Nat.le_total p.hosts q.hosts with hle | hle
    · exact Or.inr (Or.inl fun w => hp.contains_of_hosts_le hq hle hpv hqv)
    · exact Or.inr (Or.inr fun w => hq.contains_of_hosts_le hp hle hqv hpv)
  · exact Or.inl fun v hv => hcommon ⟨v, hv⟩

end Proper

/-! ### Cleared bits -/

/-- Cleared bits are not cleared again. -/
theorem masked_masked (p : IdBlock) : p.masked.masked = p.masked := by
  show (⟨p.id &&& ~~~p.hostMask &&& ~~~p.hostMask, p.length, p.bitSize⟩ : IdBlock) = p.masked
  rw [Int64.and_assoc, Int64.and_self]
  rfl

/-- The range of a block starts with the id whose bits past the length are cleared, so it does not
    matter whether they are cleared before. -/
theorem range_masked (p : IdBlock) : p.masked.range = p.range := by
  have hfirst : p.masked.first = p.first := congrArg IdBlock.id p.masked_masked
  have hlast : p.masked.last = p.last := by
    show p.masked.first ||| p.hostMask = p.first ||| p.hostMask
    rw [hfirst]
  unfold range
  rw [hfirst, hlast]

/-! ### The text of a block -/

/-- A text is read at its first slash. -/
theorem parse_eq_make {t front back : Text} (hcut : Text.cutAt [.char '/'] t = some (front, back))
    {id : Int64} {n : Nat} (hid : Decimal.readInt front = .ok id)
    (hlength : Decimal.readNat 255 back = .ok n) (bitSize : UInt8) :
    parse t bitSize = make id (UInt8.ofNat n) bitSize := by
  unfold parse
  simp only [hcut, hid, hlength]
  rfl

/-- No number is written with the mark between id and length. -/
theorem slash_not_mem {t : Text} {n : Int} (h : Decimal.Signed t n) : Glyph.char '/' ∉ t := by
  intro hmem
  obtain ⟨c, hc, hkind⟩ := h.mem hmem
  cases hc
  rcases hkind with h | h | h <;> revert h <;> decide

/-- A block is read back from its text. -/
theorem Proper.parse_text {p : IdBlock} (hp : p.Proper) :
    parse (.ofString p.text) p.bitSize = .ok p := by
  have hvalid : p.isValid := by
    have hsize := hp.bitSize
    rw [isBitSize, Bool.and_eq_true] at hsize
    exact hsize.1
  have htext : Text.ofString p.text =
      Text.ofString (display p.id) ++ [.char '/'] ++ Text.ofString (byteText p.length) := by
    rw [text, if_pos hvalid, Text.ofString_append, Text.ofString_append]
    rfl
  -- Both parts are numbers, and the mark is in neither of them, so the text is cut where it was
  -- joined.
  have hsigned : Decimal.Signed (Text.ofString (display p.id)) p.id.toInt := Decimal.signed_ofInt _
  have hlength : Decimal.readNat 255 (Text.ofString (byteText p.length)) = .ok p.length.toNat :=
    Decimal.readNat_eq_ok_iff.mpr ⟨Nat.le_of_lt_succ p.length.toNat_lt, Decimal.digits_ofNat _⟩
  rw [htext, parse_eq_make (Text.cutAt_append _ (slash_not_mem hsigned))
    (Decimal.readInt_eq_ok_iff.mpr hsigned) hlength, UInt8.ofNat_toNat]
  exact make_eq_ok_iff.mpr ⟨rfl, hp⟩

/-! ### All blocks -/

/-- What a block of a space with `bitSize` bits is, in terms of its leading bits, its mask and its
    text. -/
structure BlockLaws (bitSize : UInt8) (p : IdBlock) : Prop where
  contains_iff : ∀ v : Int64, p.range.contains v ↔
    0 ≤ v.toInt ∧ v.toInt < 2 ^ bitSize.toNat ∧ Word.AgreeOn p.length.toNat bitSize.toNat v p.id
  laminar : ∀ id length q, make id length bitSize = .ok q → p.Laminar q
  masked_masked : p.masked.masked = p.masked
  range_masked : p.masked.range = p.range
  parse_text : parse (.ofString p.text) bitSize = .ok p

/-- **A block is its leading bits.**  Take any block that can be made, in a space of any width.  Its
    range contains exactly the ids of the space that agree with its id in the leading bits that
    count, and with every other block of the space it has no id in common, or one of the two has all
    the ids of the other.  Clearing the bits that do not count twice is clearing them once, and it
    leaves the range as it is.  The text of the block is read as the block. -/
theorem blockLaws_of_make {id : Int64} {length bitSize : UInt8} {p : IdBlock}
    (h : make id length bitSize = .ok p) : BlockLaws bitSize p := by
  obtain ⟨rfl, hp⟩ := make_eq_ok_iff.mp h
  refine ⟨hp.contains_range_iff_agreeOn, fun id' length' q hq => ?_, masked_masked _,
    range_masked _, hp.parse_text⟩
  exact hp.laminar (make_eq_ok_iff.mp hq).2

/-- A block within a space, and the widest space, whose range has no end. -/
theorem samples_blockLaws :
    make 100 7 12 = .ok ⟨100, 7, 12⟩ ∧ BlockLaws 12 ⟨100, 7, 12⟩ ∧
      (⟨100, 7, 12⟩ : IdBlock).range.toInterval = .closedOpen 96 128 ∧
      make 5 0 63 = .ok ⟨5, 0, 63⟩ ∧ BlockLaws 63 ⟨5, 0, 63⟩ ∧
      (⟨5, 0, 63⟩ : IdBlock).range.toInterval = ⟨.below 0, .top⟩ :=
  have hsmall : make 100 7 12 = .ok ⟨100, 7, 12⟩ := rfl
  have hwhole : make 5 0 63 = .ok ⟨5, 0, 63⟩ := rfl
  ⟨hsmall, blockLaws_of_make hsmall, by decide, hwhole, blockLaws_of_make hwhole, by decide⟩

end IdBlock

end Allotment
