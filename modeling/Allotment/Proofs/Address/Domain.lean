import Mathlib
import Allotment.Address.Basic
import Allotment.Proofs.Domain

namespace Allotment.Address

/-!
# Addresses as a domain

The order of the addresses goes by family, then by number, then by zone.  The address after an
address has the same zone, so addresses with different zones stand between the two.  Among the
addresses without a zone nothing does, not even where the 32-bit family ends and the 128-bit family
starts.

* `IsPlain` — addresses that are set and have no zone;
* `next?_v4`, `next?_v6` — the address after one of either family;
* `lawfulOn_domain` — the plain addresses are a lawful domain;
* `patient_domain` — there is patience for all addresses.
-/

/-- An address that is set and has no zone. -/
def IsPlain (a : Address) : Prop :=
  a.isValid ∧ a.zone = ""

/-- A plain address is a 32-bit one, or a 128-bit one without a zone. -/
theorem isPlain_iff (a : Address) : a.IsPlain ↔ (∃ b, a = .v4 b) ∨ ∃ b, a = .v6 b "" := by
  cases a <;> simp [IsPlain, isValid, zone]

/-! ### The order -/

instance : Std.TransCmp Address.order :=
  inferInstanceAs (Std.TransCmp
    (compareLex (compareOn width) (compareLex (compareOn number) (compareOn zone))))

/-- The 32-bit addresses are ordered as their numbers. -/
theorem order_v4 (a b : BitVec 32) : order (.v4 a) (.v4 b) = compare a.toNat b.toNat := by
  simp [order, width, number, zone]

/-- The 128-bit addresses of one zone are ordered as their numbers. -/
theorem order_v6 (a b : BitVec 128) (z : String) :
    order (.v6 a z) (.v6 b z) = compare a.toNat b.toNat := by
  simp [order, width, number, zone]

/-- The 32-bit family comes first. -/
theorem order_v4_v6 (a : BitVec 32) (b : BitVec 128) (z : String) : order (.v4 a) (.v6 b z) = .lt :=
  rfl

/-- All 128-bit addresses come after all 32-bit ones. -/
theorem order_v6_v4 (a : BitVec 128) (b : BitVec 32) (z : String) : order (.v6 a z) (.v4 b) = .gt :=
  rfl

/-- Addresses that the order does not tell apart are the same: the width gives the family. -/
instance : Std.LawfulEqCmp Address.order where
  eq_of_compare {a b} h := by
    simp only [order, Ordering.then_eq_eq] at h
    obtain ⟨hwidth, hnumber, hzone⟩ := h
    cases a <;> cases b <;> simp_all [width, number, zone, BitVec.toNat_inj]

/-! ### The address after an address -/

/-- Counting up from a number that is not the last one does not wrap. -/
theorem toNat_add_one {n : Nat} {b : BitVec n} (h : b ≠ BitVec.allOnes n) :
    (b + 1).toNat = b.toNat + 1 := by
  have hne : b.toNat ≠ 2 ^ n - 1 := by
    rw [← BitVec.toNat_allOnes]
    exact fun heq => h (BitVec.eq_of_toNat_eq heq)
  have hlt := b.isLt
  have hmod : (b + 1).toNat = (b.toNat + 1) % 2 ^ n := by simp [BitVec.toNat_add]
  rw [hmod]
  exact Nat.mod_eq_of_lt (by omega)

/-- No word is greater than the one of all ones. -/
theorem toNat_le_allOnes {n : Nat} (b : BitVec n) : b.toNat ≤ (BitVec.allOnes n).toNat := by
  have hlt := b.isLt
  rw [BitVec.toNat_allOnes]
  omega

/-- The address after a 32-bit address; the last one is followed by the first 128-bit address. -/
theorem next?_v4 (b : BitVec 32) :
    next? (.v4 b) = some (if b = BitVec.allOnes 32 then firstV6 else .v4 (b + 1)) := by
  by_cases h : b = BitVec.allOnes 32
  · rw [if_pos h, h]
    rfl
  · have hne : Address.v4 b ≠ lastV4 := fun heq => h (Address.v4.inj heq)
    rw [if_neg h, next?, if_neg hne, sibling?, if_neg h]

/-- The address after a 128-bit address, in the same zone; the last one is followed by none. -/
theorem next?_v6 (b : BitVec 128) (z : String) :
    next? (.v6 b z) = if b = BitVec.allOnes 128 then none else some (.v6 (b + 1) z) := by
  simp [next?, sibling?, lastV4]

/-- Counting on from a plain address leads to plain addresses. -/
theorem IsPlain.next? {a b : Address} (ha : a.IsPlain) (h : a.next? = some b) : b.IsPlain := by
  rcases (isPlain_iff a).mp ha with ⟨x, rfl⟩ | ⟨x, rfl⟩
  · rw [next?_v4] at h
    obtain rfl := Option.some.inj h
    split
    · exact ⟨rfl, rfl⟩
    · exact ⟨rfl, rfl⟩
  · rw [next?_v6] at h
    split at h
    · cases h
    · obtain rfl := Option.some.inj h
      exact ⟨rfl, rfl⟩

/-- The address after a plain address is greater. -/
theorem IsPlain.lt_next? {a b : Address} (ha : a.IsPlain) (h : a.next? = some b) :
    order a b = .lt := by
  rcases (isPlain_iff a).mp ha with ⟨x, rfl⟩ | ⟨x, rfl⟩
  · rw [next?_v4] at h
    obtain rfl := Option.some.inj h
    split
    · -- At the border the greater family begins.
      exact order_v4_v6 ..
    · next hx =>
      rw [order_v4, toNat_add_one hx]
      exact Nat.compare_eq_lt.mpr (Nat.lt_succ_self _)
  · rw [next?_v6] at h
    split at h
    · cases h
    · next hx =>
      obtain rfl := Option.some.inj h
      rw [order_v6, toNat_add_one hx]
      exact Nat.compare_eq_lt.mpr (Nat.lt_succ_self _)

/-- A greater plain address is not before the next one. -/
theorem IsPlain.next?_le {a b c : Address} (ha : a.IsPlain) (hc : c.IsPlain) (h : a.next? = some b)
    (hlt : order a c = .lt) : (order b c).isLE := by
  rcases (isPlain_iff a).mp ha with ⟨x, rfl⟩ | ⟨x, rfl⟩
  · rw [next?_v4] at h
    obtain rfl := Option.some.inj h
    rcases (isPlain_iff c).mp hc with ⟨y, rfl⟩ | ⟨y, rfl⟩
    · -- An address after `a` in its own family shows that `a` is not the last one there.
      rw [order_v4, Nat.compare_eq_lt] at hlt
      have hx : x ≠ BitVec.allOnes 32 := by
        rintro rfl
        exact absurd (toNat_le_allOnes y) (by omega)
      rw [if_neg hx, order_v4, toNat_add_one hx, Nat.isLE_compare]
      exact hlt
    · split
      · -- Nothing of the 128-bit family comes before its first address.
        rw [firstV6, order_v6, Nat.isLE_compare]
        exact Nat.zero_le _
      · rw [order_v4_v6]
        rfl
  · rw [next?_v6] at h
    split at h
    · cases h
    · next hx =>
      obtain rfl := Option.some.inj h
      rcases (isPlain_iff c).mp hc with ⟨y, rfl⟩ | ⟨y, rfl⟩
      · rw [order_v6_v4] at hlt
        cases hlt
      · rw [order_v6, Nat.compare_eq_lt] at hlt
        rw [order_v6, toNat_add_one hx, Nat.isLE_compare]
        exact hlt

/-- Only the last 128-bit address has no address after it. -/
theorem IsPlain.next?_eq_none_iff {a : Address} (ha : a.IsPlain) : a.next? = none ↔ a = lastV6 := by
  rcases (isPlain_iff a).mp ha with ⟨x, rfl⟩ | ⟨x, rfl⟩
  · simp [next?_v4, lastV6]
  · simp [next?_v6, lastV6]

/-- The last 128-bit address is the last of all plain addresses. -/
theorem IsPlain.le_lastV6 {a : Address} (ha : a.IsPlain) : (order a lastV6).isLE := by
  rcases (isPlain_iff a).mp ha with ⟨x, rfl⟩ | ⟨x, rfl⟩
  · rw [lastV6, order_v4_v6]
    rfl
  · rw [lastV6, order_v6, Nat.isLE_compare]
    exact toNat_le_allOnes x

/-- The addresses that are set and have no zone are a lawful domain. -/
theorem lawfulOn_domain : domain.LawfulOn order IsPlain where
  next_mem _ _ ha h := ha.next? h
  lt_next _ _ ha h := ha.lt_next? h
  next_le _ _ _ ha hc h := ha.next?_le hc h
  next_eq_none a ha := by
    show a.next? = none ↔ _
    rw [ha.next?_eq_none_iff]
    constructor
    · rintro rfl x hx
      exact hx.le_lastV6
    · -- An address that no other one exceeds is not exceeded by the last one, so it is the last
      -- one.
      intro h
      have hlast : lastV6.IsPlain := ⟨rfl, rfl⟩
      exact Std.LawfulEqCmp.eq_of_compare (Std.OrientedCmp.isLE_antisymm ha.le_lastV6 (h _ hlast))

/-! ### Climbing -/

/-- How many addresses can come after an address, at most: those of its family, and of the 128-bit
    family after the 32-bit one. -/
def rank : Address → Nat
  | .unset => 0
  | .v4 b => 2 ^ 128 + (2 ^ 32 - b.toNat)
  | .v6 b _ => 2 ^ 128 - 1 - b.toNat

/-- Each step up leaves fewer steps to go. -/
theorem rank_next?_lt {a b : Address} (h : a.next? = some b) : b.rank < a.rank := by
  cases a with
  | unset => cases h
  | v4 x =>
    have hx := x.isLt
    rw [next?_v4] at h
    obtain rfl := Option.some.inj h
    split
    · -- The step to the other family: the addresses of the first family count on top of all 128-bit
      -- ones.
      show 2 ^ 128 - 1 - 0 < 2 ^ 128 + (2 ^ 32 - x.toNat)
      omega
    · next hne =>
      show 2 ^ 128 + (2 ^ 32 - (x + 1).toNat) < 2 ^ 128 + (2 ^ 32 - x.toNat)
      rw [toNat_add_one hne]
      omega
  | v6 x z =>
    rw [next?_v6] at h
    split at h
    · cases h
    · next hne =>
      obtain rfl := Option.some.inj h
      have hx := (x + 1).isLt
      rw [toNat_add_one hne] at hx
      show 2 ^ 128 - 1 - (x + 1).toNat < 2 ^ 128 - 1 - x.toNat
      rw [toNat_add_one hne]
      omega

/-- No search among the addresses outlasts its patience, since from no address are there more steps
    than the patience allows. -/
theorem patient_domain : domain.Patient := by
  refine ⟨rank, ?_, fun a b h => rank_next?_lt h⟩
  intro a
  show a.rank < 2 ^ 129
  cases a with
  | unset => simp [rank]
  | v4 x =>
    show 2 ^ 128 + (2 ^ 32 - x.toNat) < 2 ^ 129
    omega
  | v6 x z =>
    show 2 ^ 128 - 1 - x.toNat < 2 ^ 129
    omega

end Allotment.Address
