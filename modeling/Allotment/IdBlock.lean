import Allotment.Domain
import Allotment.Dyadic
import Allotment.IntervalSet.View
import Allotment.Order

namespace Allotment

/-!
# Id blocks

An id block is an aligned power-of-two block of an id space of at most 63 bits, written `id/length`
like a network: `96/7` holds the ids from 96 to 127 of a 12-bit space.

* `IdBlock.make`, `IdBlock.parse` — blocks from their parts and from a text;
* `IdBlock.masked`, `first`, `last`, `range` — the ids of a block;
* `IdBlock.split` — the blocks between two ids, by halving;
* `IdBlock.ofRange`, `IdBlock.ofView` — the blocks that make up a range or a set of ids.

Ids are 64-bit words and lengths are bytes; what does not fit is cut off.
-/

/-- An id with the number of its leading bits that count, in a space of `bitSize` bits. -/
structure IdBlock where
  id : Int64
  length : UInt8
  bitSize : UInt8
deriving DecidableEq

namespace IdBlock

/-- Why there is no block, or no list of blocks. -/
inductive Error where
  | badBitSize (bitSize : UInt8)
  | tooLong (length bitSize : UInt8)
  | badId (id : Int64) (bitSize : UInt8)
  | unreadableId (part text : Text)
  | unreadableLength (part text : Text)
  | outsideSpace (r : Option (Range Int64)) (bitSize : UInt8)

/-- The number of bits of the widest id space. -/
def maxBitSize : UInt8 := 63

/-- The decimal notation of a small number. -/
def byteText (n : UInt8) : String :=
  Decimal.ofNat n.toNat

/-- The message of an error about blocks. -/
def Error.message : Error → String
  | .badBitSize b => "bit size " ++ byteText b ++ " out of range [1‥" ++ byteText maxBitSize ++ "]"
  | .tooLong l b => "prefix length " ++ byteText l ++ " exceeds bit size " ++ byteText b
  | .badId v b => "id " ++ display v ++ " does not fit in " ++ byteText b ++ " bits"
  | .unreadableId p t => "invalid id " ++ p.quoted ++ " in prefix " ++ t.quoted
  | .unreadableLength p t => "invalid length " ++ p.quoted ++ " in prefix " ++ t.quoted
  | .outsideSpace r b =>
    "invalid range: invalid argument: " ++ Range.Optional.text r ++ " does not fit in " ++
      byteText b ++ " bits"

/-- The number whose lowest `bits` bits are set: one less than a power of two. -/
def mask (bits : UInt8) : Int64 :=
  Int64.ofNat (Dyadic.size bits.toNat) - 1

/-- The greatest id of a space. -/
def maxId (bitSize : UInt8) : Int64 :=
  mask bitSize

/-- Whether there are id spaces of a width. -/
def isBitSize (bitSize : UInt8) : Bool :=
  bitSize != 0 && bitSize ≤ maxBitSize

/-- The block of an id, given the number of bits that count. -/
def make (id : Int64) (length bitSize : UInt8) : Except Error IdBlock :=
  if !isBitSize bitSize then .error (.badBitSize bitSize)
  else if length > bitSize then .error (.tooLong length bitSize)
  else if id.toInt < 0 || (maxId bitSize).toInt < id.toInt then .error (.badId id bitSize)
  else .ok ⟨id, length, bitSize⟩

/-- Reads `id/length`.  A lone id is a block of its own. -/
def parse (t : Text) (bitSize : UInt8) : Except Error IdBlock := do
  let (idPart, lengthPart) := match Text.cutAt [.char '/'] t with
    | some (front, back) => (front, some back)
    | none => (t, none)
  let id ← (Decimal.readInt idPart).mapError fun _ => .unreadableId idPart t
  let length ← match lengthPart with
    | none => .ok bitSize
    | some part =>
      match Decimal.readNat 255 part with
      | .ok n => .ok (UInt8.ofNat n)
      | .error _ => .error (.unreadableLength part t)
  make id length bitSize

/-- A block that no id space has. -/
def absent : IdBlock :=
  ⟨0, 0, 0⟩

/-- Whether a block belongs to an id space. -/
def isValid (p : IdBlock) : Bool :=
  p.bitSize != 0

/-- Whether a block holds one id. -/
def isSingle (p : IdBlock) : Bool :=
  p.length == p.bitSize

/-- The bits that are free within a block. -/
def hostMask (p : IdBlock) : Int64 :=
  mask (p.bitSize - p.length)

/-- The block with the bits past its length cleared. -/
def masked (p : IdBlock) : IdBlock :=
  { p with id := p.id &&& ~~~p.hostMask }

/-- The least id of a block. -/
def first (p : IdBlock) : Int64 :=
  p.masked.id

/-- The greatest id of a block. -/
def last (p : IdBlock) : Int64 :=
  p.first ||| p.hostMask

/-- The ids of a block, half open. -/
def range (p : IdBlock) : Range Int64 :=
  Range.canonical Domain.int64 ⟨.closed p.first p.last, Order.int64⟩

/-- The text of a block. -/
def text (p : IdBlock) : String :=
  if p.isValid then display p.id ++ "/" ++ byteText p.length else "invalid Prefix"

/-! ### Halving -/

/-- The number of leading bits that two ids of a space have in common. -/
def commonBits (bitSize : UInt8) (a b : UInt64) : UInt8 :=
  UInt8.ofNat (a ^^^ b).toBitVec.clz.toNat - (64 - bitSize)

/-- The bits from the first one on in which two ids differ. -/
def hostBits (bitSize : UInt8) (a b : UInt64) : UInt64 :=
  (mask (bitSize - commonBits bitSize a b)).toUInt64

/-- The number of bits from the first one on in which two words differ. -/
def differing (a b : UInt64) : Nat :=
  64 - (a ^^^ b).toBitVec.clz.toNat

/-- Two words differ in at most 64 bits. -/
theorem differing_le (a b : UInt64) : differing a b ≤ 64 :=
  Nat.sub_le ..

@[simp] theorem differing_self (a : UInt64) : differing a a = 0 := by
  have hclz : (0#64 : BitVec 64).clz = 64#64 := BitVec.clz_eq_iff_eq_zero.mpr rfl
  simp [differing, hclz]

/-- The width of the space does not matter: what is added to it in one place is taken away in the
    other. -/
theorem sub_commonBits (bitSize : UInt8) (a b : UInt64) :
    bitSize - commonBits bitSize a b = UInt8.ofNat (differing a b) := by
  have hle : (a ^^^ b).toBitVec.clz.toNat ≤ 64 := BitVec.le_def.mp BitVec.clz_le
  rw [differing, UInt8.ofNat_sub hle, commonBits]
  show bitSize - (_ - (UInt8.ofNat 64 - bitSize)) = _
  generalize UInt8.ofNat (a ^^^ b).toBitVec.clz.toNat = n
  generalize UInt8.ofNat 64 = m
  grind

/-- A mask of some bits is the greatest number that fits in them, also when it takes all the bits of
    a word and the difference wraps around. -/
theorem toNat_mask {bits : UInt8} (h : bits.toNat ≤ 64) :
    (mask bits).toUInt64.toNat = Dyadic.size bits.toNat - 1 := by
  have hpos := Dyadic.size_pos bits.toNat
  have hle : Dyadic.size bits.toNat ≤ 18446744073709551616 := Dyadic.size_le_size h
  have hword : (UInt64.ofNat (Dyadic.size bits.toNat)).toNat =
      Dyadic.size bits.toNat % 18446744073709551616 := rfl
  show (UInt64.ofNat (Dyadic.size bits.toNat) - 1).toNat = _
  rw [UInt64.toNat_sub, hword]
  show (18446744073709551616 - 1 + _) % 18446744073709551616 = _
  -- A power of two that does not fit is zero as a word, and one less than zero has all bits set.
  omega

/-- The host bits of a block have no room for more than the bits in which its ends differ. -/
theorem toNat_hostBits (bitSize : UInt8) (a b : UInt64) :
    (hostBits bitSize a b).toNat = Dyadic.size (differing a b) - 1 := by
  have hle := differing_le a b
  have hbits : (UInt8.ofNat (differing a b)).toNat = differing a b := Nat.mod_eq_of_lt (by omega)
  rw [hostBits, sub_commonBits, toNat_mask (by omega), hbits]

/-- Two words that differ have a first bit in which they do. -/
theorem exists_differing {a b : UInt64} (h : a ≠ b) :
    ∃ n, differing a b = n + 1 ∧ Dyadic.size n ≤ (a ^^^ b).toNat := by
  have hne : (a ^^^ b).toBitVec ≠ 0#64 := fun hzero =>
    h (UInt64.xor_eq_zero_iff.mp (UInt64.toBitVec_inj.mp hzero))
  have hle := BitVec.two_pow_sub_clz_le_toNat_of_ne_zero (by decide) hne
  have hlt : (a ^^^ b).toBitVec.clz.toNat < 64 := BitVec.lt_def.mp
    (BitVec.clz_lt_iff_ne_zero.mpr hne)
  rw [← Nat.one_shiftLeft] at hle
  refine ⟨_, ?_, hle⟩
  unfold differing
  omega

/-- Half of the host bits is one bit less. -/
theorem toNat_half (bitSize : UInt8) (a b : UInt64) :
    (hostBits bitSize a b >>> 1).toNat = (Dyadic.size (differing a b) - 1) / 2 := by
  rw [UInt64.toNat_shiftRight, toNat_hostBits]
  exact Nat.shiftRight_eq_div_pow _ 1

/-- The half of the bits is less than the first bit in which the two words differ. -/
theorem half_lt {a b : UInt64} (bitSize : UInt8) (h : a ≠ b) :
    (hostBits bitSize a b >>> 1).toNat < (a ^^^ b).toNat := by
  obtain ⟨n, hn, hle⟩ := exists_differing h
  have hpos := Dyadic.size_pos n
  rw [toNat_half, hn, Dyadic.size_succ]
  omega

/-- Setting some bits of a word changes these bits only. -/
theorem xor_or_le (a c : UInt64) : (a ^^^ (a ||| c)).toNat ≤ c.toNat := by
  have hand : a ^^^ (a ||| c) = c &&& ~~~a := by
    apply UInt64.toBitVec_inj.mp
    ext i hi
    simp only [UInt64.toBitVec_xor, UInt64.toBitVec_or, UInt64.toBitVec_and, UInt64.toBitVec_not,
      BitVec.getElem_xor, BitVec.getElem_or, BitVec.getElem_and, BitVec.getElem_not]
    cases a.toBitVec[i] <;> simp
  rw [hand, UInt64.toNat_and]
  exact Nat.and_le_left

/-- Clearing some bits of a word changes these bits only. -/
theorem andNot_xor_le (b c : UInt64) : ((b &&& ~~~c) ^^^ b).toNat ≤ c.toNat := by
  have hand : (b &&& ~~~c) ^^^ b = b &&& c := by
    apply UInt64.toBitVec_inj.mp
    ext i hi
    simp only [UInt64.toBitVec_xor, UInt64.toBitVec_and, UInt64.toBitVec_not, BitVec.getElem_xor,
      BitVec.getElem_and, BitVec.getElem_not]
    cases b.toBitVec[i] <;> simp
  rw [hand, UInt64.toNat_and]
  exact Nat.and_le_right

/-- A word is a block of its own. -/
theorem ne_of_not_block {bitSize : UInt8} {a b : UInt64}
    (h : ¬ (hostBits bitSize a b &&& a = 0 ∧ hostBits bitSize a b &&& b = hostBits bitSize a b)) :
    a ≠ b := by
  rintro rfl
  have hzero : hostBits bitSize a a = 0 := by
    apply UInt64.toNat_inj.mp
    rw [toNat_hostBits, differing_self]
    rfl
  exact h (by simp [hzero])

/-- The blocks from the id `a` to the id `b`.  Unless the two are the ends of one block, the space
    is halved at the first bit in which they differ. -/
def split (bitSize : UInt8) (a b : UInt64) : List IdBlock :=
  let host := hostBits bitSize a b
  if _h : host &&& a = 0 ∧ host &&& b = host then [⟨a.toInt64, commonBits bitSize a b, bitSize⟩]
  else
    let half := host >>> 1
    split bitSize a (a ||| half) ++ split bitSize (b &&& ~~~half) b
termination_by (a ^^^ b).toNat
decreasing_by
  · exact Nat.lt_of_le_of_lt (xor_or_le _ _) (half_lt bitSize (ne_of_not_block _h))
  · exact Nat.lt_of_le_of_lt (andNot_xor_le _ _) (half_lt bitSize (ne_of_not_block _h))

/-! ### The blocks of a range -/

/-- The blocks that make up a range of ids.  The cuts of the range must lie within those of the id
    space, from its first id to its last. -/
def ofRange (r : Option (Range Int64)) (bitSize : UInt8) : Except Error (List IdBlock) :=
  if !isBitSize bitSize then .error (.badBitSize bitSize)
  else
    match r with
    | none => .error (.outsideSpace none bitSize)
    | some r =>
      let space : Interval Int64 := .closed 0 (maxId bitSize)
      if !r.isValid || !space.encloses Order.int64 r.toInterval then
        .error (.outsideSpace (some r) bitSize)
      else
        let c := r.canonical Domain.int64
        if c.isEmpty then .ok []
        else
          let first := c.lower.endpoint?.getD 0
          let last := match c.upper.endpoint? with
            | some stop => stop - 1
            | none => maxId bitSize
          .ok (split bitSize first.toUInt64 last.toUInt64)

/-- The blocks that make up a set of ids. -/
def ofView (w : View Int64) (bitSize : UInt8) : Except Error (List IdBlock) := do
  let blocks ← w.ranges.mapM fun r => ofRange (some r) bitSize
  pure blocks.flatten

end IdBlock

end Allotment
