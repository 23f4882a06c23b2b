import Allotment.Proofs.IdBlock.Halving

namespace Allotment.IdBlock

/-!
# The blocks of a range of ids

A range of ids in their natural order is made up of the fewest aligned blocks there are, in
increasing order.  Whether it is made up at all depends on how it is written: its cuts are compared
with those of the closed range of all ids before they are brought into a form in which they could be
compared, so a range up to the last id may not name the number after it.

* `Fits` — the ranges that are made up of blocks, with `fits_iff` in terms of the numbers that are
  written;
* `Ends`, `EndsIn` — the least and the greatest number of a range;
* `Fits.nil_or_cover` — the blocks are none, or those of `Dyadic.cover` from the least to the
  greatest id;
* `ofRange_makesUp` — they are aligned, in order, and have the ids of the range;
* `ofRange_length_le` — no list of blocks with these ids is shorter.
-/

variable {bitSize : UInt8} {r : Range Int64}

/-! ### Ranges that are accepted -/

/-- A range that is made up of blocks. -/
structure Fits (bitSize : UInt8) (r : Range Int64) : Prop where
  size : isBitSize bitSize
  valid : r.isValid
  encloses : (Interval.closed 0 (maxId bitSize)).encloses Order.int64 r.toInterval

/-- The least id of a range, in its half-open form. -/
def leastId (r : Range Int64) : Int64 :=
  (r.lower.canonical .int64).endpoint?.getD 0

/-- The greatest id of a range, in its half-open form.  Where that has no end it is the last id of
    the space. -/
def greatestId (bitSize : UInt8) (r : Range Int64) : Int64 :=
  match (r.upper.canonical .int64).endpoint? with
  | some stop => stop - 1
  | none => maxId bitSize

/-- The blocks of a range that fits are those between its least and its greatest id. -/
theorem Fits.ofRange_eq (h : Fits bitSize r) :
    ofRange (some r) bitSize = .ok (if (r.canonical .int64).isEmpty then []
      else split bitSize (leastId r).toUInt64 (greatestId bitSize r).toUInt64) := by
  have hfits : ¬ (!r.isValid || !(Interval.closed 0 (maxId bitSize)).encloses Order.int64
      r.toInterval) := by
    simp [h.valid, h.encloses]
  rw [ofRange, if_neg (by simp [h.size])]
  refine (if_neg hfits).trans ?_
  by_cases hempty : (r.canonical .int64).isEmpty
  · rw [if_pos hempty, if_pos hempty]
  · rw [if_neg hempty, if_neg hempty]
    rfl

/-- A range that does not fit is refused as outside the space of the ids. -/
theorem ofRange_of_not_fits (hsize : isBitSize bitSize) (h : ¬ Fits bitSize r) :
    ofRange (some r) bitSize = .error (.outsideSpace (some r) bitSize) := by
  have hout : (!r.isValid || !(Interval.closed 0 (maxId bitSize)).encloses Order.int64
      r.toInterval) := by
    by_contra hin
    rw [Bool.not_eq_true, Bool.or_eq_false_iff, Bool.not_eq_false', Bool.not_eq_false'] at hin
    exact h ⟨hsize, hin.1, hin.2⟩
  rw [ofRange, if_neg (by simp [hsize])]
  exact if_pos hout

/-- Only ranges that fit have blocks. -/
theorem fits_of_eq_ok {L : List IdBlock} (h : ofRange (some r) bitSize = .ok L) :
    Fits bitSize r := by
  by_cases hsize : isBitSize bitSize
  · by_contra hfits
    rw [ofRange_of_not_fits hsize hfits] at h
    cases h
  · rw [ofRange, if_pos (by simpa using hsize)] at h
    cases h

/-- A range that is written with a number that is no id: with the one before the first id, with the
    one after the last, or without an end. -/
def NamesBeyond (bitSize : UInt8) (r : Range Int64) : Prop :=
  r.lower = .above (-1) ∨ r.upper = .top ∨ ∃ v, r.upper = .below v ∧ v.toInt = 2 ^ bitSize.toNat

/-- The ranges that are made up of blocks have no number outside the id space, and name none. -/
theorem fits_iff (hsize : isBitSize bitSize) (hr : r.isValid) :
    Fits bitSize r ↔
      0 ≤ r.lower.position ∧ r.upper.position ≤ 2 ^ bitSize.toNat ∧ ¬ NamesBeyond bitSize r := by
  have hfits : Fits bitSize r ↔
      Cut.le Order.int64 (.below 0) r.lower ∧ Cut.le Order.int64 r.upper (.above (maxId bitSize)) :=
    ⟨fun h => (Interval.encloses_iff _ _).mp h.encloses,
      fun h => ⟨hsize, hr, (Interval.encloses_iff _ _).mpr h⟩⟩
  have hmax : (maxId bitSize).toInt + 1 = 2 ^ bitSize.toNat := by
    rw [toInt_maxId hsize, Dyadic.size_eq]
    push_cast
    omega
  have hminus : ∀ w : Int64, w.toInt + 1 = 0 ↔ w = -1 := by
    intro w
    rw [← Int64.toInt_inj]
    show w.toInt + 1 = 0 ↔ w.toInt = -1
    omega
  have hzero : (0 : Int64).toInt = 0 := rfl
  -- By places alone every range of ids would fit; the forms that do not are those that the two
  -- comparisons leave out.
  rw [hfits, Cut.below_le_iff_position, Cut.le_above_iff_position, hmax]
  simp only [ne_eq, hzero, hminus, NamesBeyond, not_or, not_exists, not_and]
  constructor
  · rintro ⟨⟨hlower, -, habove⟩, hupper, htop, hbelow⟩
    exact ⟨hlower, hupper, fun h => habove _ h rfl, htop, hbelow⟩
  · rintro ⟨hlower, hupper, habove, htop, hbelow⟩
    exact ⟨⟨hlower, Cut.ne_bottom_of_nonneg hlower, fun w hw hw' => habove (hw' ▸ hw)⟩, hupper,
      htop, hbelow⟩

/-! ### The least and the greatest id -/

/-- The least and the greatest number of a range. -/
structure Ends (r : Range Int64) (a c : Int64) : Prop where
  le : a.toInt ≤ c.toInt
  contains_iff : ∀ v, r.contains v ↔ a.toInt ≤ v.toInt ∧ v.toInt ≤ c.toInt

/-- The least and the greatest number of a range of ids. -/
structure EndsIn (bitSize : UInt8) (r : Range Int64) (a c : Int64) : Prop extends Ends r a c where
  nonneg : 0 ≤ a.toInt
  lt : c.toInt < 2 ^ bitSize.toNat

namespace Ends

variable {a c a' c' : Int64}

theorem contains_left (h : Ends r a c) : r.contains a :=
  (h.contains_iff a).mpr ⟨le_rfl, h.le⟩

theorem contains_right (h : Ends r a c) : r.contains c :=
  (h.contains_iff c).mpr ⟨h.le, le_rfl⟩

/-- A range has one least and one greatest id. -/
theorem unique (h : Ends r a c) (h' : Ends r a' c') : a = a' ∧ c = c' := by
  have ha := (h'.contains_iff a).mp h.contains_left
  have hc := (h'.contains_iff c).mp h.contains_right
  have ha' := (h.contains_iff a').mp h'.contains_left
  have hc' := (h.contains_iff c').mp h'.contains_right
  rw [← Int64.toInt_inj, ← Int64.toInt_inj]
  omega

end Ends

/-- The least id is the position of the lower cut. -/
theorem toInt_leastId (hlower : 0 ≤ r.lower.position)
    (hlt : r.lower.position < 9223372036854775808) : (leastId r).toInt = r.lower.position := by
  obtain ⟨v, hcut, hv⟩ := Cut.exists_canonical_eq_below hlower hlt
  rw [leastId, hcut]
  exact hv

/-- Only in the widest space can the half-open form of a range have no end. -/
theorem toInt_greatestId (hsize : isBitSize bitSize) (hpos : 0 < r.upper.position)
    (hupper : r.upper.position ≤ 2 ^ bitSize.toNat) :
    (greatestId bitSize r).toInt = r.upper.position - 1 := by
  have hle := r.upper.position_le
  by_cases hlt : r.upper.position < 9223372036854775808
  · obtain ⟨v, hcut, hv⟩ := Cut.exists_canonical_eq_below hpos.le hlt
    rw [greatestId, hcut, ← hv]
    exact Word.toInt_sub_of_le (by decide) (by rw [hv]; exact hpos)
  · -- Then the space has as many ids as there are words that are not negative.
    have htop : r.upper.position = 9223372036854775808 := by omega
    have hspace := size_le_of_le ((isBitSize_iff bitSize).mp hsize).2
    rw [Dyadic.size_eq] at hspace
    zify at hspace
    rw [greatestId, Cut.canonical_eq_top htop, htop]
    show (maxId bitSize).toInt = 9223372036854775808 - 1
    rw [toInt_maxId hsize, Dyadic.size_eq]
    push_cast
    omega

/-- The ids of a range that fits, by its cuts. -/
theorem Fits.position_le (h : Fits bitSize r) :
    0 ≤ r.lower.position ∧ r.upper.position ≤ 2 ^ bitSize.toNat :=
  have hcuts := (fits_iff h.size h.valid).mp h
  ⟨hcuts.1, hcuts.2.1⟩

/-- A number in the space of the ids has no higher bits. -/
theorem div_size_eq_zero {n h : Nat} (hn : (n : Int) < 2 ^ h) : n / Dyadic.size h = 0 := by
  rw [Dyadic.size_eq]
  exact Nat.div_eq_of_lt (by exact_mod_cast hn)

/-- **The blocks of a range.**  A range without ids has none, and the others have those of
    `Dyadic.cover` between their least and their greatest id. -/
theorem Fits.nil_or_cover (h : Fits bitSize r) (hr : r.cmp = Order.int64) :
    ((∀ v, ¬ r.contains v) ∧ ofRange (some r) bitSize = .ok []) ∨
      ∃ a c, EndsIn bitSize r a c ∧
        ofRange (some r) bitSize =
          .ok ((Dyadic.cover bitSize.toNat a.toInt.toNat c.toInt.toNat).map
            (ofDyadic bitSize)) := by
  obtain ⟨hlower, hupper⟩ := h.position_le
  have hempty : (r.canonical .int64).isEmpty ↔ r.upper.position ≤ r.lower.position := by
    have hiff := Interval.isEmpty_canonical_iff (Cut.ne_bottom_of_nonneg hlower)
    rwa [← hr] at hiff
  rw [h.ofRange_eq]
  by_cases hlt : r.upper.position ≤ r.lower.position
  · left
    rw [if_pos (hempty.mpr hlt)]
    refine ⟨fun v hv => ?_, rfl⟩
    have hv := (Range.contains_iff_position hr v).mp hv
    omega
  · right
    have hle := r.upper.position_le
    have hleast := toInt_leastId hlower (by omega)
    have hgreatest := toInt_greatestId h.size (by omega) hupper
    refine ⟨leastId r, greatestId bitSize r, ⟨⟨by omega, fun v => ?_⟩, by omega, by omega⟩, ?_⟩
    · rw [Range.contains_iff_position hr]
      omega
    rw [if_neg (hempty.not.mpr hlt)]
    have ha : ((leastId r).toUInt64.toNat : Int) = (leastId r).toInt := Word.toNat_toUInt64
      (by omega)
    have hc : ((greatestId bitSize r).toUInt64.toNat : Int) = (greatestId bitSize r).toInt :=
      Word.toNat_toUInt64 (by omega)
    -- Both ids are below the size of the space, so they agree above its bits.
    have hagree : (leastId r).toUInt64.toNat / Dyadic.size bitSize.toNat =
        (greatestId bitSize r).toUInt64.toNat / Dyadic.size bitSize.toNat := by
      rw [div_size_eq_zero (by omega), div_size_eq_zero (by omega)]
    rw [split_eq_cover bitSize hagree, ← ha, ← hc, Int.toNat_natCast, Int.toNat_natCast]

/-! ### The blocks make up the range -/

/-- Aligned blocks of a space, in increasing order and apart, that have the ids of a range. -/
structure MakesUp (bitSize : UInt8) (r : Range Int64) (L : List IdBlock) : Prop where
  bitSize_eq : ∀ p ∈ L, p.bitSize = bitSize
  length_le : ∀ p ∈ L, p.length ≤ bitSize
  made : ∀ p ∈ L, make p.id p.length bitSize = .ok p
  masked_eq : ∀ p ∈ L, p.masked = p
  increasing : L.Pairwise fun p q => p.last.toInt < q.first.toInt
  disjoint : L.Pairwise fun p q => ∀ v, ¬ (p.range.contains v ∧ q.range.contains v)
  contains_iff : ∀ v, (∃ p ∈ L, p.range.contains v) ↔ r.contains v

/-- Nothing is cut off on the way to the blocks of a range: masks are one less than a power of two,
    the number before the end and the ids without their signs are what they are among the integers,
    and so are the blocks, which are those of `Dyadic.cover` in natural numbers. -/
structure Exact (bitSize : UInt8) (r : Range Int64) (L : List IdBlock) : Prop where
  toInt_mask : ∀ h : UInt8, h.toNat ≤ 63 → (mask h).toInt = 2 ^ h.toNat - 1
  toInt_stop : ∀ stop, r.upper.canonical .int64 = .below stop → (∃ v, r.contains v) →
    (stop - 1).toInt = stop.toInt - 1
  toNat_id : ∀ v, r.contains v → (v.toUInt64.toNat : Int) = v.toInt
  eq_nil : (∀ v, ¬ r.contains v) → L = []
  eq_cover : ∀ a c, Ends r a c →
    L.map (fun p => (p.id.toInt, p.length.toNat)) =
      (Dyadic.cover bitSize.toNat a.toInt.toNat c.toInt.toNat).map fun B =>
        ((B.start : Int), bitSize.toNat - B.hostBits)

/-- Blocks that have the ids of a range and are in order are apart. -/
theorem Composes.makesUp {L : List IdBlock} (h : Composes bitSize (fun v => r.contains v) L) :
    MakesUp bitSize r L := by
  have hmade : ∀ p ∈ L, p.bitSize = bitSize ∧ p.Proper := by
    intro p hp
    obtain ⟨heq, hproper⟩ := make_eq_ok_iff.mp (h.made p hp)
    exact ⟨by rw [heq], hproper⟩
  refine ⟨fun p hp => (hmade p hp).1, fun p hp => ?_, h.made, h.masked_eq, h.increasing, ?_,
    h.contains_iff⟩
  · obtain ⟨hsize, hproper⟩ := hmade p hp
    exact UInt8.le_iff_toNat_le.mpr (hsize ▸ hproper.length)
  · refine h.increasing.imp fun {p q} hlt v => ?_
    rw [contains_range_iff_le, contains_range_iff_le]
    omega

theorem makesUp_nil (hr : ∀ v, ¬ r.contains v) : MakesUp bitSize r [] where
  bitSize_eq := by simp
  length_le := by simp
  made := by simp
  masked_eq := by simp
  increasing := .nil
  disjoint := .nil
  contains_iff v := by simp [hr v]

section

variable {a c : Int64}

/-- The dyadic blocks between the ends of a range of ids. -/
theorem EndsIn.covers (h : EndsIn bitSize r a c) :
    Dyadic.Covers a.toInt.toNat c.toInt.toNat
      (Dyadic.cover bitSize.toNat a.toInt.toNat c.toInt.toNat) := by
  have hle := h.le
  have hnonneg := h.nonneg
  have hlt := h.lt
  refine Dyadic.covers_cover (by omega) ?_
  rw [div_size_eq_zero (by omega), div_size_eq_zero (by omega)]

variable {K : List Dyadic.Block}

/-- The blocks of a cover stay in the space of the ids. -/
theorem EndsIn.le_size (h : EndsIn bitSize r a c) (hK : Dyadic.Covers a.toInt.toNat c.toInt.toNat K)
    {B : Dyadic.Block} (hB : B ∈ K) :
    B.start + Dyadic.size B.hostBits ≤ Dyadic.size bitSize.toNat := by
  have hle := h.le
  have hnonneg := h.nonneg
  have hlt := h.lt
  have hbound := (hK.bounds hB).2
  rw [Dyadic.size_eq bitSize.toNat]
  zify at hbound ⊢
  rw [Int.toNat_of_nonneg (by omega)] at hbound
  omega

/-- All ids of a range with such ends are in the space of the ids. -/
theorem EndsIn.inSpace (h : EndsIn bitSize r a c) (hsize : isBitSize bitSize) :
    InSpace bitSize fun v => r.contains v := by
  intro v hv
  have hnonneg := h.nonneg
  have hlt := h.lt
  have hbounds := (h.contains_iff v).mp hv
  exact ⟨hsize, by omega, by omega⟩

/-- The ids of a range, as natural numbers. -/
theorem EndsIn.held_iff (h : EndsIn bitSize r a c) (n : Nat) :
    Held (fun v => r.contains v) n ↔ a.toInt.toNat ≤ n ∧ n ≤ c.toInt.toNat := by
  have hle := h.le
  have hnonneg := h.nonneg
  have hlt := c.toInt_lt
  constructor
  · rintro ⟨v, hv, hcontains⟩
    have hbounds := (h.contains_iff v).mp hcontains
    omega
  · intro hn
    obtain ⟨v, hv⟩ := Word.exists_toInt_eq (n := n) (by omega) (by omega)
    exact ⟨v, hv, (h.contains_iff v).mpr (by omega)⟩

/-- A cover of the numbers between the ends tiles the ids of the range. -/
theorem EndsIn.tiles (h : EndsIn bitSize r a c) (hK : Dyadic.Covers a.toInt.toNat c.toInt.toNat K) :
    Dyadic.Tiles (Held fun v => r.contains v) K :=
  hK.toTiles.of_iff fun n => (h.held_iff n).symm

/-- Dyadic blocks that cover the ids of a range are blocks of ids that make it up. -/
theorem EndsIn.makesUp (h : EndsIn bitSize r a c) (hsize : isBitSize bitSize)
    (hK : Dyadic.Covers a.toInt.toNat c.toInt.toNat K) :
    MakesUp bitSize r (K.map (ofDyadic bitSize)) :=
  ((h.inSpace hsize).composes (h.tiles hK)).makesUp

/-- The ids and the lengths of dyadic blocks that cover the ids of a range are those of the
    blocks. -/
theorem EndsIn.map_ofDyadic (h : EndsIn bitSize r a c) (hsize : isBitSize bitSize)
    (hK : Dyadic.Covers a.toInt.toNat c.toInt.toNat K) :
    (K.map (ofDyadic bitSize)).map (fun p => (p.id.toInt, p.length.toNat)) =
      K.map fun B => ((B.start : Int), bitSize.toNat - B.hostBits) := by
  rw [List.map_map]
  refine List.map_congr_left fun B hB => ?_
  have hin := h.le_size hK hB
  show ((ofDyadic bitSize B).id.toInt, (ofDyadic bitSize B).length.toNat) = _
  rw [toInt_id_ofDyadic hsize hin, (ofDyadic_exact hsize hin).2.1]

end

/-- The arithmetic in words, but for the blocks themselves. -/
theorem Fits.exact (h : Fits bitSize r) (hr : r.cmp = Order.int64) {L : List IdBlock}
    (hnil : (∀ v, ¬ r.contains v) → L = [])
    (hcover : ∀ a c, Ends r a c → L.map (fun p => (p.id.toInt, p.length.toNat)) =
      (Dyadic.cover bitSize.toNat a.toInt.toNat c.toInt.toNat).map fun B =>
        ((B.start : Int), bitSize.toNat - B.hostBits)) : Exact bitSize r L where
  toInt_mask bits hbits := by
    rw [IdBlock.toInt_mask hbits, Dyadic.size_eq]
    push_cast
    rfl
  toInt_stop stop hstop := by
    rintro ⟨v, hv⟩
    have hposition := Cut.position_canonical r.upper
    rw [hstop, Cut.position_below] at hposition
    have hlower := h.position_le.1
    have hv := (Range.contains_iff_position hr v).mp hv
    -- An id of the range is before the end, so the end is positive and one less is no lower than
    -- zero.
    exact Word.toInt_sub_of_le (by decide) (show 1 ≤ stop.toInt by omega)
  toNat_id v hv := by
    have hlower := h.position_le.1
    have hv := (Range.contains_iff_position hr v).mp hv
    exact Word.toNat_toUInt64 (by omega)
  eq_nil := hnil
  eq_cover := hcover

/-- **Exact covers.**  The blocks of a range in the natural order are aligned blocks of the space,
    strictly increasing and apart, and an id lies in one of them when the range contains it.  All of
    it is computed without loss, also in the widest space and up to the greatest word. -/
theorem ofRange_makesUp {L : List IdBlock} (hr : r.cmp = Order.int64)
    (h : ofRange (some r) bitSize = .ok L) : MakesUp bitSize r L ∧ Exact bitSize r L := by
  have hfits := fits_of_eq_ok h
  obtain ⟨hnone, heq⟩ | ⟨a, c, hends, heq⟩ := hfits.nil_or_cover hr
  · obtain rfl : [] = L := by
      rw [heq] at h
      exact Except.ok.inj h
    exact ⟨makesUp_nil hnone, hfits.exact hr (fun _ => rfl) fun a c hends =>
      absurd hends.contains_left (hnone a)⟩
  · rw [heq] at h
    obtain rfl := Except.ok.inj h
    refine ⟨hends.makesUp hfits.size hends.covers,
      hfits.exact hr (fun hnone => ?_) fun a' c' hends' => ?_⟩
    · exact absurd hends.contains_left (hnone a)
    · -- A range has one least and one greatest id.
      obtain ⟨rfl, rfl⟩ := hends.unique hends'
      exact hends.map_ofDyadic hfits.size hends.covers

/-- Up to the greatest word, in the widest space. -/
def sampleTop : Range Int64 :=
  ⟨⟨.above 4611686018427387902, .above 9223372036854775807⟩, Order.int64⟩

/-- The upper half of the greatest space and the id before it take two blocks. -/
theorem ofRange_sampleTop :
    ofRange (some sampleTop) 63 =
      .ok [⟨4611686018427387903, 63, 63⟩, ⟨4611686018427387904, 1, 63⟩] := by
  have hsplit : ofRange (some sampleTop) 63 =
      .ok (split 63 4611686018427387903 9223372036854775807) := rfl
  rw [hsplit, split_eq]
  rfl

/-- The two blocks at the upper end of the greatest space, where the end of the range is no id any
    more. -/
theorem sampleTop_makesUp :
    sampleTop.cmp = Order.int64 ∧
      ofRange (some sampleTop) 63 =
        .ok [⟨4611686018427387903, 63, 63⟩, ⟨4611686018427387904, 1, 63⟩] ∧
      MakesUp 63 sampleTop [⟨4611686018427387903, 63, 63⟩, ⟨4611686018427387904, 1, 63⟩] ∧
      Exact 63 sampleTop [⟨4611686018427387903, 63, 63⟩, ⟨4611686018427387904, 1, 63⟩] :=
  ⟨rfl, ofRange_sampleTop, ofRange_makesUp rfl ofRange_sampleTop⟩

/-- A range in another order is halved as if it were in the natural one: here the ids are 1 and 2,
    and neither the first nor the second block has the id 2. -/
theorem downward_not_makesUp :
    ∃ L, ofRange (some ⟨⟨.above 3, .above 1⟩, fun a b => Order.int64 b a⟩) 12 = .ok L ∧
      ¬ MakesUp 12 ⟨⟨.above 3, .above 1⟩, fun a b => Order.int64 b a⟩ L := by
  refine ⟨split 12 4 1, rfl, fun h => ?_⟩
  rw [split_eq] at h
  have htwo := (h.contains_iff 2).mpr (by decide)
  exact absurd htwo (by decide)

/-! ### No list of blocks is shorter -/

/-- Blocks with the ids of a range, as dyadic blocks. -/
theorem EndsIn.has_iff {a c : Int64} {M : List IdBlock} (hends : EndsIn bitSize r a c)
    (hM : ∀ p ∈ M, p.Proper) (hsame : ∀ v, (∃ p ∈ M, p.range.contains v) ↔ r.contains v) (n : Nat) :
    (∃ D ∈ M.map block, D.Has n) ↔ a.toInt.toNat ≤ n ∧ n ≤ c.toInt.toNat :=
  (has_block_iff hM hsame n).trans (hends.held_iff n)

/-- **Fewest blocks.**  No blocks of the space with the ids of a range in the natural order, apart
    or not and in whichever order they stand, are fewer than those of the range: each of them lies
    within one of these. -/
theorem ofRange_length_le {L M : List IdBlock} (hr : r.cmp = Order.int64)
    (h : ofRange (some r) bitSize = .ok L)
    (hM : ∀ p ∈ M, ∃ id length, make id length bitSize = .ok p)
    (hsame : ∀ v, (∃ p ∈ M, p.range.contains v) ↔ r.contains v) : L.length ≤ M.length := by
  obtain ⟨-, heq⟩ | ⟨a, c, hends, heq⟩ := (fits_of_eq_ok h).nil_or_cover hr
  · obtain rfl : [] = L := by
      rw [heq] at h
      exact Except.ok.inj h
    exact Nat.zero_le _
  · rw [heq] at h
    obtain rfl := Except.ok.inj h
    -- The other list is one of aligned blocks too, with the same ids.
    have hhas := hends.has_iff (proper_of_made hM) hsame
    rw [List.length_map]
    exact length_le_of_has_block hends.covers.toTiles hends.covers.greatest hhas

/-- Three blocks that overlap, one of them with bits past its length. -/
def sampleOverlap : List IdBlock :=
  [⟨9223372036854775807, 2, 63⟩, ⟨4611686018427387904, 1, 63⟩, ⟨4611686018427387903, 63, 63⟩]

/-- The three blocks have the ids of the sample range, although two of them overlap. -/
theorem sampleOverlap_same (v : Int64) :
    (∃ p ∈ sampleOverlap, p.range.contains v) ↔ sampleTop.contains v := by
  have hlt := v.toInt_lt
  rw [Range.contains_iff_position rfl]
  simp only [sampleOverlap, List.mem_cons, List.not_mem_nil, or_false, exists_eq_or_imp,
    exists_eq_left, contains_range_iff_le]
  show 6917529027641081856 ≤ v.toInt ∧ v.toInt ≤ 9223372036854775807 ∨
    4611686018427387904 ≤ v.toInt ∧ v.toInt ≤ 9223372036854775807 ∨
    4611686018427387903 ≤ v.toInt ∧ v.toInt ≤ 4611686018427387903 ↔
    4611686018427387902 + 1 ≤ v.toInt ∧ v.toInt < 9223372036854775807 + 1
  omega

/-- Blocks that overlap are not fewer either. -/
theorem sampleOverlap_length_le :
    ofRange (some sampleTop) 63 =
      .ok [⟨4611686018427387903, 63, 63⟩, ⟨4611686018427387904, 1, 63⟩] ∧
      (∀ p ∈ sampleOverlap, ∃ id length, make id length 63 = .ok p) ∧
      (∀ v, (∃ p ∈ sampleOverlap, p.range.contains v) ↔ sampleTop.contains v) ∧
      2 ≤ sampleOverlap.length := by
  have hmade : ∀ p ∈ sampleOverlap, ∃ id length, make id length 63 = .ok p := by
    simp only [sampleOverlap, List.forall_mem_cons, List.not_mem_nil, false_implies, implies_true,
      and_true]
    exact ⟨⟨9223372036854775807, 2, rfl⟩, ⟨4611686018427387904, 1, rfl⟩,
      ⟨4611686018427387903, 63, rfl⟩⟩
  exact ⟨ofRange_sampleTop, hmade, sampleOverlap_same,
    ofRange_length_le rfl ofRange_sampleTop hmade sampleOverlap_same⟩

/-- The ids from 7 down to 0 are one block; in the order in which they are asked for they come to
    two. -/
theorem downward_not_fewest :
    ∃ L M : List IdBlock, ofRange (some ⟨.closed 7 0, fun a b => Order.int64 b a⟩) 12 = .ok L ∧
      (∀ p ∈ M, ∃ id length, make id length 12 = .ok p) ∧
      (∀ v, (∃ p ∈ M, p.range.contains v) ↔
        (⟨.closed 7 0, fun a b => Order.int64 b a⟩ : Range Int64).contains v) ∧
      M.length < L.length := by
  refine ⟨split 12 7 0, [⟨0, 9, 12⟩], rfl, ?_, fun v => ?_, ?_⟩
  · simp only [List.mem_singleton, forall_eq]
    exact ⟨0, 9, rfl⟩
  · simp only [List.mem_singleton, exists_eq_left, contains_range_iff_le]
    show 0 ≤ v.toInt ∧ v.toInt ≤ 7 ↔ ((compare v.toInt 7).isLE && !(compare v.toInt 0).isLT) = true
    rw [Bool.and_eq_true, Int.isLE_compare, Bool.not_eq_true', ← Bool.not_eq_true,
      Ordering.isLT_iff_eq_lt, Int.compare_eq_lt]
    omega
  · rw [split_eq]
    decide

end Allotment.IdBlock
