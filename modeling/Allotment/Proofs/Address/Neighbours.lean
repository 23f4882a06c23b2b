import Allotment.Proofs.Address.Place

namespace Allotment.Address

/-!
# Neighbours in the row of the addresses

The address after an address and the one before it are found by counting within a family, with the
step from the last 32-bit address to the first 128-bit one as an exception in either direction.  The
order of the addresses says without any counting which plain addresses are neighbours: those between
which there is no other one.  By the places of the addresses both are the same.

* `Adjoins` — neighbours, by the order alone;
* `IsPlain.adjoins_iff` — neighbours stand at places that follow on each other;
* `IsPlain.of_next?` — only plain addresses come before plain addresses;
* `IsPlain.previous?_eq_some_iff_next?` — a step down is a step up in the other direction;
* `NeighbourLaws`, `neighbourLaws_of_isPlain` — the steps up and down from every plain address.
-/

variable {a b : Address}

/-- The address `b` is after `a`, and no plain address is between the two. -/
def Adjoins (a b : Address) : Prop :=
  order a b = .lt ∧ ∀ c : Address, c.IsPlain → ¬ (order a c = .lt ∧ order c b = .lt)

/-! ### Steps by place -/

/-- Neighbours stand at places that follow on each other, since every place is taken. -/
theorem IsPlain.adjoins_iff (ha : a.IsPlain) (hb : b.IsPlain) :
    a.Adjoins b ↔ b.place = a.place + 1 := by
  unfold Adjoins
  rw [ha.order_eq hb, Nat.compare_eq_lt]
  constructor
  · rintro ⟨hlt, hnone⟩
    by_contra hne
    -- The address at the place after that of `a` would be between the two.
    have hcount := hb.place_lt_count
    obtain ⟨c, hc, hplace⟩ := exists_place (n := a.place + 1) (by omega)
    apply hnone c hc
    rw [ha.order_eq hc, hc.order_eq hb, Nat.compare_eq_lt, Nat.compare_eq_lt]
    omega
  · intro hplace
    refine ⟨by omega, fun c hc => ?_⟩
    rw [ha.order_eq hc, hc.order_eq hb, Nat.compare_eq_lt, Nat.compare_eq_lt]
    omega

/-- Only the first 32-bit address has no address before it. -/
theorem IsPlain.previous?_eq_none_iff (hb : b.IsPlain) : b.previous? = none ↔ b = firstV4 := by
  constructor
  · intro h
    have hcases := hb.previous?_cases
    rw [h] at hcases
    exact hb.eq_of_place_eq (isPlain_v4 0) hcases
  · rintro rfl
    rfl

/-- Only plain addresses come before plain addresses: a step keeps the zone, and nothing comes after
    no address. -/
theorem IsPlain.of_next? (hb : b.IsPlain) (h : a.next? = some b) : a.IsPlain := by
  cases a with
  | unset => cases h
  | v4 x => exact isPlain_v4 x
  | v6 x z =>
    rw [next?_v6] at h
    split at h
    · cases h
    · obtain rfl := Option.some.inj h
      exact ⟨rfl, hb.2⟩

/-- A step down is a step up in the other direction, across the border of the families as well. -/
theorem IsPlain.previous?_eq_some_iff_next? (hb : b.IsPlain) :
    b.previous? = some a ↔ a.next? = some b := by
  rw [hb.previous?_eq_some_iff]
  constructor
  · rintro ⟨ha, hplace⟩
    exact ha.next?_eq_some_iff.mpr ⟨hb, hplace⟩
  · intro h
    -- The places say nothing about an address with a zone, so `a` has to be plain first.
    have ha := hb.of_next? h
    exact ⟨ha, (ha.next?_eq_some_iff.mp h).2⟩

/-! ### All plain addresses -/

/-- The steps up and down from an address, against the order. -/
structure NeighbourLaws (a : Address) : Prop where
  next_eq_some_iff : ∀ b, domain.next a = some b ↔ b.IsPlain ∧ a.Adjoins b
  next_eq_none_iff : domain.next a = none ↔ a = lastV6
  previous?_eq_some_iff : ∀ b, a.previous? = some b ↔ domain.next b = some a
  previous?_eq_none_iff : a.previous? = none ↔ a = firstV4

/-- **The plain addresses stand in one row.**  The address after a plain address is the plain
    address that is greater with no plain address between, and only the last 128-bit address has
    none.  An address is the one before a plain address exactly when that is the one after it, and
    only the first 32-bit address has none before it.  So every step can be taken back, within a
    family and from one family to the other. -/
theorem neighbourLaws_of_isPlain (ha : a.IsPlain) : NeighbourLaws a where
  next_eq_some_iff b := by
    show a.next? = some b ↔ _
    rw [ha.next?_eq_some_iff]
    exact and_congr_right fun hb => (ha.adjoins_iff hb).symm
  next_eq_none_iff := ha.next?_eq_none_iff
  previous?_eq_some_iff _ := ha.previous?_eq_some_iff_next?
  previous?_eq_none_iff := ha.previous?_eq_none_iff

/-- The border of the families from both sides, and the last 128-bit address that stands for a
    32-bit one, after which no family starts. -/
theorem border_neighbourLaws :
    lastV4.IsPlain ∧ NeighbourLaws lastV4 ∧
      domain.next lastV4 = some firstV6 ∧ lastV4.Adjoins firstV6 ∧
      firstV6.IsPlain ∧ NeighbourLaws firstV6 ∧ firstV6.previous? = some lastV4 ∧
      (v6 0xffffffffffff "").IsPlain ∧ NeighbourLaws (v6 0xffffffffffff "") ∧
      domain.next (v6 0xffffffffffff "") = some (v6 0x1000000000000 "") :=
  have hlast := neighbourLaws_of_isPlain isPlain_lastV4
  have hmapped := isPlain_v6 0xffffffffffff
  ⟨isPlain_lastV4, hlast, rfl, ((hlast.next_eq_some_iff _).mp rfl).2, isPlain_firstV6,
    neighbourLaws_of_isPlain isPlain_firstV6, rfl, hmapped,
    neighbourLaws_of_isPlain hmapped, by decide⟩

end Allotment.Address
