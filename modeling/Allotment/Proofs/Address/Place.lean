import Allotment.Proofs.Address.Domain

namespace Allotment

/-!
# The places of the addresses

The plain addresses stand in one row: the 32-bit family first, the 128-bit family after it.  The
place of an address is its number in this row.  Comparing addresses, going to the one after or
before, and asking for the family of an address are then matters of arithmetic; and a cut that
stands beside a plain address has a place too, that of the first address after it.

* `Address.place`, `Address.exists_place` — the row of the addresses;
* `Address.IsPlain.order_eq` — the order is that of the places;
* `Address.IsPlain.next?_eq_some_iff`, `Address.IsPlain.previous?_eq_some_iff` — the addresses
  beside an address;
* `Cut.place`, `Interval.IsPlain.contains_iff` — the addresses of an interval are those between two
  places.
-/

namespace Address

/-- The number of plain addresses. -/
def count : Nat :=
  2 ^ 32 + 2 ^ 128

/-- The number of plain addresses before an address. -/
def place : Address → Nat
  | .unset => 0
  | .v4 b => b.toNat
  | .v6 b _ => 2 ^ 32 + b.toNat

@[simp] theorem place_v4 (b : BitVec 32) : (v4 b).place = b.toNat :=
  rfl

@[simp] theorem place_v6 (b : BitVec 128) (z : String) : (v6 b z).place = 2 ^ 32 + b.toNat :=
  rfl

/-- All 32-bit addresses are plain, since they never have a zone. -/
theorem isPlain_v4 (b : BitVec 32) : (v4 b).IsPlain :=
  ⟨rfl, rfl⟩

/-- A 128-bit address without a zone is plain. -/
theorem isPlain_v6 (b : BitVec 128) : (v6 b "").IsPlain :=
  ⟨rfl, rfl⟩

theorem isPlain_lastV4 : lastV4.IsPlain :=
  isPlain_v4 _

theorem isPlain_firstV6 : firstV6.IsPlain :=
  isPlain_v6 _

@[simp] theorem place_firstV4 : firstV4.place = 0 :=
  rfl

@[simp] theorem place_lastV4 : lastV4.place = 2 ^ 32 - 1 :=
  rfl

@[simp] theorem place_firstV6 : firstV6.place = 2 ^ 32 :=
  rfl

@[simp] theorem place_lastV6 : lastV6.place = count - 1 :=
  rfl

/-- Every place is taken. -/
theorem exists_place {n : Nat} (h : n < count) : ∃ a : Address, a.IsPlain ∧ a.place = n := by
  unfold count at h
  by_cases hn : n < 2 ^ 32
  · refine ⟨.v4 (BitVec.ofNat 32 n), isPlain_v4 _, ?_⟩
    rw [place_v4, BitVec.toNat_ofNat, Nat.mod_eq_of_lt hn]
  · refine ⟨.v6 (BitVec.ofNat 128 (n - 2 ^ 32)) "", isPlain_v6 _, ?_⟩
    rw [place_v6, BitVec.toNat_ofNat, Nat.mod_eq_of_lt (by omega)]
    omega

/-- Counting down from a number that is not the first one does not wrap. -/
theorem toNat_sub_one {n : Nat} {b : BitVec n} (h : b ≠ 0) : (b - 1).toNat + 1 = b.toNat := by
  have hpos : b.toNat ≠ 0 := fun hzero => h (BitVec.eq_of_toNat_eq (by simpa using hzero))
  have hlt := b.isLt
  have hone : (1 : BitVec n).toNat = 1 := by
    simp only [BitVec.ofNat_eq_ofNat, BitVec.toNat_ofNat]
    exact Nat.mod_eq_of_lt (by omega)
  have hle : 1 ≤ b := by
    rw [BitVec.le_def, hone]
    omega
  rw [BitVec.toNat_sub_of_le hle, hone]
  omega

namespace IsPlain

variable {a b : Address}

/-- Plain addresses have no places but those of the row. -/
theorem place_lt_count (ha : a.IsPlain) : a.place < count := by
  unfold count
  rcases (isPlain_iff a).mp ha with ⟨x, rfl⟩ | ⟨x, rfl⟩
  · have hx := x.isLt
    rw [place_v4]
    omega
  · have hx := x.isLt
    rw [place_v6]
    omega

/-- The plain addresses are ordered by their places. -/
theorem order_eq (ha : a.IsPlain) (hb : b.IsPlain) : order a b = compare a.place b.place := by
  rcases (isPlain_iff a).mp ha with ⟨x, rfl⟩ | ⟨x, rfl⟩
  · rcases (isPlain_iff b).mp hb with ⟨y, rfl⟩ | ⟨y, rfl⟩
    · -- Within a family the order is that of the numbers.
      exact order_v4 x y
    · -- The families stand one after the other, so the place alone tells which address is greater.
      have hx := x.isLt
      rw [order_v4_v6, place_v4, place_v6]
      exact (Nat.compare_eq_lt.mpr (by omega)).symm
  · rcases (isPlain_iff b).mp hb with ⟨y, rfl⟩ | ⟨y, rfl⟩
    · have hy := y.isLt
      rw [order_v6_v4, place_v4, place_v6]
      exact (Nat.compare_eq_gt.mpr (by omega)).symm
    · rw [order_v6, place_v6, place_v6, Nat.compare_eq_ite_lt, Nat.compare_eq_ite_lt]
      simp only [Nat.add_lt_add_iff_left]

/-- The order of plain addresses, read off their places. -/
theorem le_iff (ha : a.IsPlain) (hb : b.IsPlain) : a.le b ↔ a.place ≤ b.place := by
  rw [le, ha.order_eq hb, Nat.isLE_compare]

/-- The strict order of plain addresses, read off their places. -/
theorem lt_iff (ha : a.IsPlain) (hb : b.IsPlain) : a.lt b ↔ a.place < b.place := by
  rw [lt, ha.order_eq hb, Ordering.isLT_iff_eq_lt, Nat.compare_eq_lt]

/-- Plain addresses at one place are the same. -/
theorem eq_of_place_eq (ha : a.IsPlain) (hb : b.IsPlain) (h : a.place = b.place) : a = b := by
  have hcompare : order a b = .eq := by
    rw [ha.order_eq hb]
    exact Nat.compare_eq_eq.mpr h
  exact Std.LawfulEqCmp.eq_of_compare hcompare

/-- The families meet at the place of the first 128-bit address. -/
theorem width_eq (ha : a.IsPlain) : a.width = if a.place < 2 ^ 32 then 32 else 128 := by
  rcases (isPlain_iff a).mp ha with ⟨x, rfl⟩ | ⟨x, rfl⟩
  · rw [place_v4, if_pos x.isLt]
    rfl
  · rw [place_v6, if_neg (by omega)]
    rfl

/-- Two addresses belong to one family when both of them stand before the border, or none does. -/
theorem width_eq_iff (ha : a.IsPlain) (hb : b.IsPlain) :
    a.width = b.width ↔ (a.place < 2 ^ 32 ↔ b.place < 2 ^ 32) := by
  rw [ha.width_eq, hb.width_eq]
  split <;> split <;> simp_all only [iff_true, iff_false, not_true, Nat.reduceEqDiff]

/-- The address after an address stands at the next place; only the last place has none after it. -/
theorem next?_cases (ha : a.IsPlain) :
    match a.next? with
    | some b => b.IsPlain ∧ b.place = a.place + 1
    | none => a.place + 1 = count := by
  cases hnext : a.next? with
  | none =>
    have hlast := (ha.next?_eq_none_iff).mp hnext
    rw [hlast]
    rfl
  | some b =>
    have hb := ha.next? hnext
    have hlt := ha.lt_next? hnext
    rw [ha.order_eq hb, Nat.compare_eq_lt] at hlt
    refine ⟨hb, Nat.le_antisymm ?_ hlt⟩
    -- The address at the next place is greater, so the one after `a` does not come after it.
    obtain ⟨c, hc, hplace⟩ := exists_place (n := a.place + 1) (by have := hb.place_lt_count; omega)
    have hle := ha.next?_le hc hnext (by
      rw [ha.order_eq hc, Nat.compare_eq_lt]
      omega)
    rw [hb.order_eq hc, Nat.isLE_compare] at hle
    omega

/-- The address before an address stands at the place before; only the first place has none before
    it. -/
theorem previous?_cases (ha : a.IsPlain) :
    match a.previous? with
    | some b => b.IsPlain ∧ b.place + 1 = a.place
    | none => a.place = 0 := by
  rcases (isPlain_iff a).mp ha with ⟨x, rfl⟩ | ⟨x, rfl⟩
  · by_cases hx : x = 0
    · simp [previous?, firstV6, hx]
    · simp only [previous?, firstV6, reduceCtorEq, if_false, hx]
      exact ⟨isPlain_v4 _, toNat_sub_one hx⟩
  · by_cases hx : x = 0
    · -- The first 128-bit address is the one from which a step leads to the other family.
      subst hx
      exact ⟨isPlain_lastV4, rfl⟩
    · have hne : Address.v6 x "" ≠ firstV6 := by
        simpa [firstV6] using hx
      simp only [previous?, if_neg hne, if_neg hx]
      refine ⟨isPlain_v6 _, ?_⟩
      have hplace := toNat_sub_one hx
      simp only [place_v6]
      omega

/-- The address after a plain address is the plain one at the next place. -/
theorem next?_eq_some_iff (ha : a.IsPlain) :
    a.next? = some b ↔ b.IsPlain ∧ b.place = a.place + 1 := by
  have hcases := ha.next?_cases
  constructor
  · intro h
    rw [h] at hcases
    exact hcases
  · rintro ⟨hb, hplace⟩
    cases hnext : a.next? with
    | none =>
      -- Without an address after it, `a` has the last place, and `b` would be beyond.
      have hcount := hb.place_lt_count
      rw [hnext] at hcases
      omega
    | some c =>
      rw [hnext] at hcases
      rw [hcases.1.eq_of_place_eq hb (hcases.2.trans hplace.symm)]

/-- The address before a plain address is the plain one at the place before. -/
theorem previous?_eq_some_iff (hb : b.IsPlain) :
    b.previous? = some a ↔ a.IsPlain ∧ b.place = a.place + 1 := by
  have hcases := hb.previous?_cases
  constructor
  · intro h
    rw [h] at hcases
    exact ⟨hcases.1, hcases.2.symm⟩
  · rintro ⟨ha, hplace⟩
    cases hprevious : b.previous? with
    | none =>
      rw [hprevious] at hcases
      omega
    | some c =>
      rw [hprevious] at hcases
      rw [hcases.1.eq_of_place_eq ha (by omega)]

/-- The next address of the same family is the one at the next place, if that belongs to the
    family. -/
theorem sibling?_eq_some_iff (ha : a.IsPlain) (hb : b.IsPlain) :
    a.sibling? = some b ↔ a.width = b.width ∧ b.place = a.place + 1 := by
  constructor
  · intro h
    have hwidth : a.width = b.width := by
      revert h
      cases a with
      | unset =>
        intro h
        cases h
      | v4 x =>
        simp only [sibling?]
        split
        · intro h
          cases h
        · rintro ⟨⟩
          rfl
      | v6 x z =>
        simp only [sibling?]
        split
        · intro h
          cases h
        · rintro ⟨⟩
          rfl
    -- A step to a sibling is a step to the next address, except at the end of the 32-bit family.
    have hne : a ≠ lastV4 := by
      rintro rfl
      cases h
    have hcases := ha.next?_cases
    rw [Address.next?, if_neg hne, h] at hcases
    exact ⟨hwidth, hcases.2⟩
  · rintro ⟨hwidth, hplace⟩
    have hnext := ha.next?_eq_some_iff.mpr ⟨hb, hplace⟩
    -- The address after the last 32-bit one has another width.
    have hne : a ≠ lastV4 := by
      rintro rfl
      have hplace' : b.place = firstV6.place := by
        rw [hplace]
        rfl
      rw [hb.eq_of_place_eq isPlain_firstV6 hplace'] at hwidth
      cases hwidth
    rw [Address.next?, if_neg hne] at hnext
    exact hnext

end IsPlain

end Address

/-! ### Cuts and intervals -/

/-- A cut that does not stand beside an address that is unset or has a zone. -/
def Cut.IsPlain (c : Cut Address) : Prop :=
  ∀ v, c.endpoint? = some v → v.IsPlain

/-- The number of plain addresses below a cut. -/
def Cut.place : Cut Address → Nat
  | .bottom => 0
  | .below v => v.place
  | .above v => v.place + 1
  | .top => Address.count

namespace Cut

open Address

variable {c d : Cut Address} {a : Address}

@[simp] theorem place_bottom : (bottom : Cut Address).place = 0 :=
  rfl

@[simp] theorem place_below (v : Address) : (below v).place = v.place :=
  rfl

@[simp] theorem place_above (v : Address) : (above v).place = v.place + 1 :=
  rfl

@[simp] theorem place_top : (top : Cut Address).place = count :=
  rfl

theorem isPlain_bottom : (bottom : Cut Address).IsPlain := by
  intro v h
  cases h

theorem isPlain_below (ha : a.IsPlain) : (below a).IsPlain := by
  rintro v ⟨⟩
  exact ha

theorem isPlain_above (ha : a.IsPlain) : (above a).IsPlain := by
  rintro v ⟨⟩
  exact ha

theorem isPlain_top : (top : Cut Address).IsPlain := by
  intro v h
  cases h

/-- The last cut is the one after all places. -/
theorem IsPlain.place_le_count (hc : c.IsPlain) : c.place ≤ count := by
  cases c with
  | bottom => exact Nat.zero_le _
  | below v => exact Nat.le_of_lt (hc v rfl).place_lt_count
  | above v => exact (hc v rfl).place_lt_count
  | top => exact Nat.le_refl _

/-- A cut comes before an address when its place is not after that of the address. -/
theorem IsPlain.le_below_iff (hc : c.IsPlain) (ha : a.IsPlain) :
    le order c (.below a) ↔ c.place ≤ a.place := by
  have hlt := ha.place_lt_count
  cases c with
  | bottom => simp
  | below v =>
    rw [below_le_below]
    exact (hc v rfl).le_iff ha
  | above v =>
    rw [above_le_below, (hc v rfl).order_eq ha, Nat.compare_eq_lt]
    exact Iff.rfl
  | top =>
    refine iff_of_false nofun ?_
    rw [place_top]
    omega

/-- Cuts in order have places in order.  Where no address is between two cuts their places are the
    same, so the converse does not hold. -/
theorem IsPlain.place_le_of_le (hc : c.IsPlain) (hd : d.IsPlain) (h : le order c d) :
    c.place ≤ d.place := by
  by_contra hlt
  have hcount := hc.place_le_count
  obtain ⟨a, ha, hplace⟩ := exists_place (n := d.place) (by omega)
  have hle : le order d (.below a) := (hd.le_below_iff ha).mpr (by omega)
  have hca := (hc.le_below_iff ha).mp (le_trans h hle)
  omega

/-- The later one of two plain cuts is plain. -/
theorem IsPlain.max (hc : c.IsPlain) (hd : d.IsPlain) : (Cut.max order c d).IsPlain := by
  unfold Cut.max
  split
  · exact hc
  · exact hd

/-- The earlier one of two plain cuts is plain. -/
theorem IsPlain.min (hc : c.IsPlain) (hd : d.IsPlain) : (Cut.min order c d).IsPlain := by
  unfold Cut.min
  split
  · exact hc
  · exact hd

end Cut

/-- An interval between plain addresses, or without bound. -/
structure Interval.IsPlain (r : Interval Address) : Prop where
  lower : r.lower.IsPlain
  upper : r.upper.IsPlain

/-- The plain addresses of an interval are those from the place of its lower cut up to that of its
    upper one. -/
theorem Interval.IsPlain.contains_iff {r : Interval Address} (hr : r.IsPlain) {a : Address}
    (ha : a.IsPlain) :
    r.contains Address.order a ↔ r.lower.place ≤ a.place ∧ a.place < r.upper.place := by
  rw [contains_iff_spans, Spans, hr.lower.le_below_iff ha, Cut.lt_eq_not_le, Bool.not_eq_true',
    ← Bool.not_eq_true, hr.upper.le_below_iff ha, Nat.not_le]

/-- An interval holds a plain address when its upper cut has a later place than its lower one. -/
theorem Interval.IsPlain.exists_contains_iff {r : Interval Address} (hr : r.IsPlain) :
    (∃ a : Address, a.IsPlain ∧ r.contains Address.order a) ↔ r.lower.place < r.upper.place := by
  constructor
  · rintro ⟨a, ha, hcontains⟩
    rw [hr.contains_iff ha] at hcontains
    omega
  · intro hlt
    have hcount := hr.upper.place_le_count
    obtain ⟨a, ha, hplace⟩ := Address.exists_place (n := r.lower.place) (by omega)
    refine ⟨a, ha, (hr.contains_iff ha).mpr ?_⟩
    omega

end Allotment
