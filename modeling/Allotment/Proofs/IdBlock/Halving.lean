import Allotment.Proofs.IdBlock.Basic

namespace Allotment.IdBlock

/-!
# Halving in words

The ids between two ends are halved in 64-bit words: the first bit in which the ends differ is found
by counting zeros, and the bits past it are set or cleared by masks.  On every two words this is the
halving of natural numbers.

* `differing_eq` — counting zeros finds the highest bit in which two words differ;
* `block_iff` — the test by masks says whether the ends are those of a dyadic block;
* `split_eq_cover` — so the blocks are those of `Dyadic.cover`;
* `ofDyadic_exact`, `block_ofDyadic` — and their ids and lengths are exact, as long as they lie in
  the id space;
* `Held`, `Composes` — ids as natural numbers, and the blocks that make them up;
* `InSpace.composes` — dyadic blocks that make up the numbers of ids are blocks that make up the
  ids.
-/

/-- A dyadic block as a block of ids. -/
def ofDyadic (bitSize : UInt8) (B : Dyadic.Block) : IdBlock :=
  ⟨(UInt64.ofNat B.start).toInt64, bitSize - UInt8.ofNat B.hostBits, bitSize⟩

/-- The block of ids that starts at a word. -/
theorem ofDyadic_toNat (bitSize : UInt8) (a : UInt64) (h : Nat) :
    ofDyadic bitSize ⟨a.toNat, h⟩ = ⟨a.toInt64, bitSize - UInt8.ofNat h, bitSize⟩ := by
  rw [ofDyadic, UInt64.ofNat_toNat]

/-- The common bits are those of an id without the bits from the first difference on. -/
theorem commonBits_eq (bitSize : UInt8) (a b : UInt64) :
    commonBits bitSize a b = bitSize - UInt8.ofNat (differing a b) := by
  rw [← sub_commonBits bitSize a b]
  generalize commonBits bitSize a b = c
  grind

/-! ### The first bit in which two words differ -/

/-- Words that agree above `h + 1` bits and differ in the next one. -/
theorem differing_eq {a b : UInt64} {h : Nat}
    (hagree : a.toNat / Dyadic.size (h + 1) = b.toNat / Dyadic.size (h + 1))
    (hbit : a.toNat.testBit h ≠ b.toNat.testBit h) : differing a b = h + 1 := by
  have hne : a ≠ b := by
    rintro rfl
    exact hbit rfl
  obtain ⟨n, hn, hle⟩ := exists_differing hne
  have hlt : (a ^^^ b).toNat < Dyadic.size (differing a b) := by
    rw [Dyadic.size_eq]
    exact BitVec.toNat_lt_two_pow_sub_clz
  rw [UInt64.toNat_xor] at hle hlt
  -- The difference lies between the powers of two around the bit, and between those around the one
  -- that is found.
  have hbelow : a.toNat ^^^ b.toNat < Dyadic.size (h + 1) := by
    rw [Dyadic.size_eq] at hagree ⊢
    rw [← Nat.div_eq_zero_iff_lt (Nat.two_pow_pos _), Nat.xor_div_two_pow, hagree, Nat.xor_self]
  have habove : Dyadic.size h ≤ a.toNat ^^^ b.toNat := by
    rw [Dyadic.size_eq]
    refine Nat.ge_two_pow_of_testBit ?_
    rw [Nat.testBit_xor]
    simpa using hbit
  have hnh : n < h + 1 := Dyadic.size_lt_size_iff.mp (Nat.lt_of_le_of_lt hle hbelow)
  have hhn : h < n + 1 := Dyadic.size_lt_size_iff.mp (Nat.lt_of_le_of_lt habove (hn ▸ hlt))
  omega

/-- The host bits of a word are what is left below the first difference. -/
theorem toNat_hostBits_and (bitSize : UInt8) (a b w : UInt64) :
    (hostBits bitSize a b &&& w).toNat = w.toNat % Dyadic.size (differing a b) := by
  rw [UInt64.toNat_and, toNat_hostBits, Nat.and_comm, Dyadic.size_eq,
    Nat.and_two_pow_sub_one_eq_mod]

/-- The test by masks: the lowest bits of one end are all clear, and those of the other are all
    set. -/
theorem block_iff (bitSize : UInt8) (a b : UInt64) :
    (hostBits bitSize a b &&& a = 0 ∧ hostBits bitSize a b &&& b = hostBits bitSize a b) ↔
      Dyadic.isBlock (differing a b) a.toNat b.toNat := by
  rw [Dyadic.isBlock_iff, ← UInt64.toNat_inj, ← UInt64.toNat_inj, toNat_hostBits_and,
    toNat_hostBits_and, toNat_hostBits]
  exact Iff.rfl

/-! ### The blocks between two words -/

/-- The mask of the lower half of the block. -/
theorem toNat_half_of_differing {a b : UInt64} {h : Nat} (bitSize : UInt8)
    (hdiff : differing a b = h + 1) : (hostBits bitSize a b >>> 1).toNat = Dyadic.size h - 1 := by
  rw [toNat_half, hdiff, Dyadic.size_succ]
  omega

/-- Two ends of a block are the block itself. -/
theorem split_of_block {bitSize : UInt8} {a b : UInt64}
    (h : Dyadic.isBlock (differing a b) a.toNat b.toNat) :
    split bitSize a b = [ofDyadic bitSize ⟨a.toNat, differing a b⟩] := by
  rw [split, dif_pos ((block_iff bitSize a b).mpr h), commonBits_eq, ofDyadic_toNat]

/-- All other ends are split at the middle. -/
theorem split_of_not_block {bitSize : UInt8} {a b : UInt64}
    (h : ¬ Dyadic.isBlock (differing a b) a.toNat b.toNat) :
    split bitSize a b = split bitSize a (a ||| hostBits bitSize a b >>> 1) ++
      split bitSize (b &&& ~~~(hostBits bitSize a b >>> 1)) b := by
  rw [split, dif_neg ((block_iff bitSize a b).not.mpr h)]

/-- **Halving in words is halving.**  On every two words that agree above `h` bits, in order or not.
    By induction on the bits, as in `Dyadic.cover`: words that agree in the highest of them are
    halved further down. -/
theorem split_eq_cover {h : Nat} (bitSize : UInt8) {a b : UInt64}
    (hagree : a.toNat / Dyadic.size h = b.toNat / Dyadic.size h) :
    split bitSize a b = (Dyadic.cover h a.toNat b.toNat).map (ofDyadic bitSize) := by
  induction h generalizing a b with
  | zero =>
    have hsize : Dyadic.size 0 = 1 := rfl
    rw [hsize, Nat.div_one, Nat.div_one] at hagree
    obtain rfl := UInt64.toNat_inj.mp hagree
    have hblock : Dyadic.isBlock (differing a a) a.toNat a.toNat := by
      rw [differing_self, Dyadic.isBlock_iff, hsize]
      omega
    rw [split_of_block hblock, differing_self]
    rfl
  | succ h ih =>
    unfold Dyadic.cover
    by_cases hbit : a.toNat.testBit h = b.toNat.testBit h
    · rw [if_pos (beq_iff_eq.mpr hbit)]
      exact ih (Dyadic.div_size_eq_of_testBit_eq hagree hbit)
    rw [if_neg (by simpa using hbit)]
    have hdiff := differing_eq hagree hbit
    by_cases hblock : Dyadic.isBlock (h + 1) a.toNat b.toNat
    · rw [if_pos hblock, split_of_block (hdiff ▸ hblock), hdiff]
      rfl
    · rw [if_neg hblock, split_of_not_block (hdiff ▸ hblock)]
      have hhalf := toNat_half_of_differing bitSize hdiff
      have hleft : (a ||| hostBits bitSize a b >>> 1).toNat = a.toNat ||| (Dyadic.size h - 1) := by
        rw [UInt64.toNat_or, hhalf]
      have hright := Word.toNat_and_not (w := b) hhalf
      -- Both halves agree above the bits that are left.
      rw [ih (by rw [hleft, Dyadic.or_mask_div]), ih (by rw [hright, Dyadic.sub_mod_div]), hleft,
        hright, List.map_append]

/-- Any two words agree above all their bits. -/
theorem split_eq (bitSize : UInt8) (a b : UInt64) :
    split bitSize a b = (Dyadic.cover 64 a.toNat b.toNat).map (ofDyadic bitSize) := by
  apply split_eq_cover
  rw [Dyadic.size_eq, Nat.div_eq_of_lt a.toNat_lt, Nat.div_eq_of_lt b.toNat_lt]

/-! ### The ids of the blocks -/

section

variable {bitSize : UInt8} {B : Dyadic.Block}

/-- A dyadic block that lies in an id space is a block of ids, with its start and the bits above it
    as they are. -/
theorem ofDyadic_exact (hsize : isBitSize bitSize)
    (hin : B.start + Dyadic.size B.hostBits ≤ Dyadic.size bitSize.toNat) :
    (ofDyadic bitSize B).id.toUInt64.toNat = B.start ∧
      (ofDyadic bitSize B).length.toNat = bitSize.toNat - B.hostBits ∧
      (ofDyadic bitSize B).hosts = B.hostBits := by
  have hbits := (isBitSize_iff bitSize).mp hsize
  have hspace := size_le_of_le hbits.2
  have hhost : B.hostBits ≤ bitSize.toNat := Dyadic.size_le_size_iff.mp (by omega)
  have hbyte : (UInt8.ofNat B.hostBits).toNat = B.hostBits := Nat.mod_eq_of_lt (by omega)
  have hlength : (bitSize - UInt8.ofNat B.hostBits).toNat = bitSize.toNat - B.hostBits := by
    rw [UInt8.toNat_sub_of_le _ _ (UInt8.le_iff_toNat_le.mpr (by omega)), hbyte]
  have hpos := Dyadic.size_pos B.hostBits
  refine ⟨Nat.mod_eq_of_lt (by omega), hlength, ?_⟩
  show bitSize.toNat - (bitSize - UInt8.ofNat B.hostBits).toNat = B.hostBits
  omega

/-- The id of a block in the space is the number that the block starts with. -/
theorem toInt_id_ofDyadic (hsize : isBitSize bitSize)
    (hin : B.start + Dyadic.size B.hostBits ≤ Dyadic.size bitSize.toNat) :
    (ofDyadic bitSize B).id.toInt = B.start := by
  have hspace := size_le_of_le ((isBitSize_iff bitSize).mp hsize).2
  have hid := (ofDyadic_exact hsize hin).1
  have hpos := Dyadic.size_pos B.hostBits
  rw [Word.toInt_eq_toNat (by omega), hid]

/-- A block in the space can be made. -/
theorem proper_ofDyadic (hsize : isBitSize bitSize)
    (hin : B.start + Dyadic.size B.hostBits ≤ Dyadic.size bitSize.toNat) :
    (ofDyadic bitSize B).Proper := by
  have hid := toInt_id_ofDyadic hsize hin
  have hlength : (ofDyadic bitSize B).length.toNat ≤ bitSize.toNat := by
    rw [(ofDyadic_exact hsize hin).2.1]
    exact Nat.sub_le ..
  have hpos := Dyadic.size_pos B.hostBits
  refine ⟨hsize, hlength, by omega, ?_⟩
  show (ofDyadic bitSize B).id.toInt < Dyadic.size bitSize.toNat
  omega

/-- Aligned blocks come back unchanged. -/
theorem block_ofDyadic (hB : B.Aligned) (hsize : isBitSize bitSize)
    (hin : B.start + Dyadic.size B.hostBits ≤ Dyadic.size bitSize.toNat) :
    (ofDyadic bitSize B).block = B := by
  obtain ⟨hid, -, hhosts⟩ := ofDyadic_exact hsize hin
  rw [block, hid, hhosts, Nat.mod_eq_zero_of_dvd hB, Nat.sub_zero]

/-- The range of an aligned block has the ids that are in it. -/
theorem contains_ofDyadic (hB : B.Aligned) (hsize : isBitSize bitSize)
    (hin : B.start + Dyadic.size B.hostBits ≤ Dyadic.size bitSize.toNat) (v : Int64) :
    (ofDyadic bitSize B).range.contains v ↔ 0 ≤ v.toInt ∧ B.Has v.toInt.toNat := by
  rw [(proper_ofDyadic hsize hin).contains_range_iff, block_ofDyadic hB hsize hin]

theorem toInt_first_ofDyadic (hB : B.Aligned) (hsize : isBitSize bitSize)
    (hin : B.start + Dyadic.size B.hostBits ≤ Dyadic.size bitSize.toNat) :
    (ofDyadic bitSize B).first.toInt = B.start := by
  rw [(proper_ofDyadic hsize hin).toInt_first, block_ofDyadic hB hsize hin]

theorem toInt_last_ofDyadic (hB : B.Aligned) (hsize : isBitSize bitSize)
    (hin : B.start + Dyadic.size B.hostBits ≤ Dyadic.size bitSize.toNat) :
    (ofDyadic bitSize B).last.toInt = B.start + Dyadic.size B.hostBits - 1 := by
  rw [(proper_ofDyadic hsize hin).toInt_last, block_ofDyadic hB hsize hin,
    (ofDyadic_exact hsize hin).2.2]

end

/-- The block with the bits past its length cleared is the dyadic block of its ids. -/
theorem Proper.ofDyadic_block {p : IdBlock} (hp : p.Proper) :
    ofDyadic p.bitSize p.block = p.masked := by
  have hid : (UInt64.ofNat p.block.start).toInt64 = p.first := by
    rw [← hp.toNat_first, UInt64.ofNat_toNat, Int64.toInt64_toUInt64]
  have hlength : p.bitSize - UInt8.ofNat p.hosts = p.length := by
    rw [← hp.toNat_hosts, UInt8.ofNat_toNat]
    grind
  show (⟨_, p.bitSize - UInt8.ofNat p.hosts, p.bitSize⟩ : IdBlock) = ⟨p.first, p.length, p.bitSize⟩
  rw [hid, hlength]

/-! ### Ids as natural numbers -/

/-- The numbers of a collection of ids. -/
def Held (S : Int64 → Prop) (n : Nat) : Prop :=
  ∃ v : Int64, v.toInt = n ∧ S v

/-- Ids of one space.  There are none if the bit size is not that of a space. -/
def InSpace (bitSize : UInt8) (S : Int64 → Prop) : Prop :=
  ∀ v, S v → isBitSize bitSize ∧ 0 ≤ v.toInt ∧ v.toInt < 2 ^ bitSize.toNat

/-- Blocks of a space without bits past their lengths, in increasing order, that have the ids of
    `S`. -/
structure Composes (bitSize : UInt8) (S : Int64 → Prop) (L : List IdBlock) : Prop where
  made : ∀ p ∈ L, make p.id p.length bitSize = .ok p
  masked_eq : ∀ p ∈ L, p.masked = p
  increasing : L.Pairwise fun p q => p.last.toInt < q.first.toInt
  contains_iff : ∀ v, (∃ p ∈ L, p.range.contains v) ↔ S v

section

variable {bitSize : UInt8} {S : Int64 → Prop}

/-- An id is held exactly when its number is. -/
theorem held_toNat {v : Int64} (hv : 0 ≤ v.toInt) : Held S v.toInt.toNat ↔ S v := by
  have hcast := Int.toNat_of_nonneg hv
  constructor
  · rintro ⟨w, hw, hS⟩
    rwa [Int64.toInt_inj.mp (hw.trans hcast)] at hS
  · exact fun h => ⟨v, hcast.symm, h⟩

/-- The ids of a block are the numbers of its dyadic block. -/
theorem Proper.held_iff {p : IdBlock} (hp : p.Proper) (n : Nat) :
    Held (fun v => p.range.contains v) n ↔ p.block.Has n := by
  constructor
  · rintro ⟨v, hv, hcontains⟩
    have hn := (hp.contains_range_iff v).mp hcontains
    rw [hv, Int.toNat_natCast] at hn
    exact hn.2
  · intro hn
    have hend := hn.2.trans_le hp.block_lt
    obtain ⟨v, hv⟩ := Word.exists_toInt_eq (n := n) (by omega) (by omega)
    refine ⟨v, hv, (hp.contains_range_iff v).mpr ?_⟩
    rw [hv, Int.toNat_natCast]
    exact ⟨Int.natCast_nonneg n, hn⟩

/-- A block lies in a set of ids exactly when its numbers are held. -/
theorem Proper.forall_has_iff {p : IdBlock} (hp : p.Proper) :
    (∀ n, p.block.Has n → Held S n) ↔ ∀ v, p.range.contains v → S v := by
  simp only [← hp.held_iff]
  constructor
  · intro h v hv
    have hpos := ((hp.contains_range_iff v).mp hv).1
    exact (held_toNat hpos).mp (h _ ((held_toNat hpos).mpr hv))
  · rintro h n ⟨v, hv, hcontains⟩
    exact ⟨v, hv, h v hcontains⟩

/-- Blocks with given ids, as dyadic blocks. -/
theorem has_block_iff {M : List IdBlock} (hM : ∀ p ∈ M, p.Proper)
    (hsame : ∀ v, (∃ p ∈ M, p.range.contains v) ↔ S v) (n : Nat) :
    (∃ D ∈ M.map block, D.Has n) ↔ Held S n := by
  calc (∃ D ∈ M.map block, D.Has n) ↔ ∃ p ∈ M, p.block.Has n := by
        simp only [List.mem_map, exists_exists_and_eq_and]
    _ ↔ ∃ p ∈ M, Held (fun v => p.range.contains v) n :=
        exists_congr fun p => and_congr_right fun hp => ((hM p hp).held_iff n).symm
    _ ↔ Held S n := by
        simp only [Held, ← hsame]
        exact ⟨fun ⟨p, hp, v, hv, h⟩ => ⟨v, hv, p, hp, h⟩,
          fun ⟨v, hv, p, hp, h⟩ => ⟨p, hp, v, hv, h⟩⟩

/-- Blocks of ids with given numbers are not fewer than the greatest ones, since all of them are
    aligned. -/
theorem length_le_of_has_block {X : Nat → Prop} {K : List Dyadic.Block} {M : List IdBlock}
    (hK : Dyadic.Tiles X K) (hgreatest : Dyadic.Greatest X K)
    (hhas : ∀ n, (∃ D ∈ M.map block, D.Has n) ↔ X n) : K.length ≤ M.length := by
  have haligned : ∀ D ∈ M.map block, D.Aligned :=
    List.forall_mem_map.mpr fun p _ => p.aligned_block
  calc K.length ≤ (M.map block).length := hK.length_le hgreatest haligned hhas
    _ = M.length := List.length_map _

namespace InSpace

/-- A block with ids of the space only stays in the space. -/
theorem le_size (hS : InSpace bitSize S) {B : Dyadic.Block} (hB : ∀ n, B.Has n → Held S n) :
    isBitSize bitSize ∧ B.start + Dyadic.size B.hostBits ≤ Dyadic.size bitSize.toNat := by
  obtain ⟨v, hv, hmem⟩ := hB _ B.has_last
  obtain ⟨hsize, -, hlt⟩ := hS v hmem
  rw [hv] at hlt
  refine ⟨hsize, ?_⟩
  rw [Dyadic.size_eq bitSize.toNat]
  zify
  have hpos := Dyadic.size_pos B.hostBits
  omega

variable {K : List Dyadic.Block}

/-- The blocks with the ids of a set in the space can be made. -/
theorem made_ofDyadic (hS : InSpace bitSize S) (hhas : ∀ n, (∃ B ∈ K, B.Has n) ↔ Held S n) :
    ∀ p ∈ K.map (ofDyadic bitSize), make p.id p.length bitSize = .ok p := by
  refine List.forall_mem_map.mpr fun B hB => make_eq_ok_iff.mpr ⟨rfl, ?_⟩
  obtain ⟨hsize, hin⟩ := hS.le_size fun n hn => (hhas n).mp ⟨B, hB, hn⟩
  exact proper_ofDyadic hsize hin

/-- The blocks with the numbers of a set have its ids. -/
theorem contains_ofDyadic_iff (hS : InSpace bitSize S) (hK : ∀ B ∈ K, B.Aligned)
    (hhas : ∀ n, (∃ B ∈ K, B.Has n) ↔ Held S n) (v : Int64) :
    (∃ p ∈ K.map (ofDyadic bitSize), p.range.contains v) ↔ S v := by
  simp only [List.mem_map, exists_exists_and_eq_and]
  constructor
  · rintro ⟨B, hB, hv⟩
    obtain ⟨hsize, hin⟩ := hS.le_size fun n hn => (hhas n).mp ⟨B, hB, hn⟩
    obtain ⟨hpos, hBv⟩ := (contains_ofDyadic (hK B hB) hsize hin v).mp hv
    exact (held_toNat hpos).mp ((hhas _).mp ⟨B, hB, hBv⟩)
  · intro hv
    have hpos := (hS v hv).2.1
    obtain ⟨B, hB, hBv⟩ := (hhas _).mpr ((held_toNat hpos).mpr hv)
    obtain ⟨hsize, hin⟩ := hS.le_size fun n hn => (hhas n).mp ⟨B, hB, hn⟩
    exact ⟨B, hB, (contains_ofDyadic (hK B hB) hsize hin v).mpr ⟨hpos, hBv⟩⟩

/-- Dyadic blocks that make up the numbers of ids are blocks that make up the ids. -/
theorem composes (hS : InSpace bitSize S) (hK : Dyadic.Tiles (Held S) K) :
    Composes bitSize S (K.map (ofDyadic bitSize)) := by
  -- Nothing is lost when the dyadic blocks become blocks of ids.
  have hin : ∀ B ∈ K, isBitSize bitSize ∧
      B.start + Dyadic.size B.hostBits ≤ Dyadic.size bitSize.toNat :=
    fun B hB => hS.le_size fun n hn => hK.of_mem hB hn
  refine ⟨hS.made_ofDyadic hK.has_iff, ?_, ?_, hS.contains_ofDyadic_iff hK.aligned hK.has_iff⟩
  · -- A block that starts where its dyadic block does has no bits past its length.
    refine List.forall_mem_map.mpr fun B hB => ?_
    obtain ⟨hsize, hle⟩ := hin B hB
    have hmasked := (proper_ofDyadic hsize hle).ofDyadic_block
    rw [block_ofDyadic (hK.aligned B hB) hsize hle] at hmasked
    exact hmasked.symm
  · rw [List.pairwise_map]
    refine hK.increasing.imp_of_mem fun {B C} hB hC hlt => ?_
    rw [toInt_last_ofDyadic (hK.aligned B hB) (hin B hB).1 (hin B hB).2,
      toInt_first_ofDyadic (hK.aligned C hC) (hin C hC).1 (hin C hC).2]
    omega

end InSpace

end

end Allotment.IdBlock
