import Allotment.Range.Reading
import Allotment.Proofs.Address.Conversion

namespace Allotment.Address

/-!
# From spans to ranges and back

The range of a span is half open, so its upper end stands at the address after the last one: in the
other family after the last 32-bit address, and nowhere after the last 128-bit one.  The way back
steps from that end to the address before it.  An end without bound takes its family from the other
end.

* `toSpan_eq_ok_iff`, `ends_of_toSpan` — when a range has a span, and where the span goes from and
  to;
* `contains_iff_of_toSpan` — a span holds the addresses that its range has in the family of the
  span;
* `exists_toSpan_iff` — a range has a span when it holds an address and names one family;
* `ofSpan_eq_canonical` — the half-open form of a range goes by the places of its cuts;
* `span_roundTrip` — both ways around.
-/

variable {p : Interval Address} {s : AddressSpan}

/-! ### The ends of the span of a range -/

/-- A first address is found exactly where the lower end has a bound. -/
theorem isBounded_of_firstAbove {r : Range Address} {c : Cut Address} {first? : Option Address}
    (h : firstAbove r c = .ok first?) : c.isBounded = first?.isSome := by
  unfold firstAbove at h
  split at h
  · cases h
    rfl
  · split at h <;> cases h
    rfl
  · -- The cuts that are left have no address.
    next hbelow habove =>
    cases h
    cases c with
    | below v => exact absurd rfl (hbelow v)
    | above v => exact absurd rfl (habove v)
    | _ => rfl

/-- A last address is found exactly where the upper end has a bound. -/
theorem isBounded_of_lastBelow {r : Range Address} {c : Cut Address} {last? : Option Address}
    (h : lastBelow r c = .ok last?) : c.isBounded = last?.isSome := by
  unfold lastBelow at h
  split at h
  · cases h
    rfl
  · split at h <;> cases h
    rfl
  · -- The cuts that are left have no address.
    next habove hbelow =>
    cases h
    cases c with
    | below v => exact absurd rfl (hbelow v)
    | above v => exact absurd rfl (habove v)
    | _ => rfl

/-- A range with a span is not empty, and it has a bound. -/
theorem lt_and_isBounded_of_toSpan (h : toSpan (some ⟨p, order⟩) = .ok s) :
    Cut.lt order p.lower p.upper ∧ (p.lower.isBounded || p.upper.isBounded) := by
  simp only [toSpan] at h
  split at h
  · cases h
  · next hempty =>
    split at h
    · cases h
    · next hnone =>
      rw [← Bool.not_or, Bool.not_eq_true, Bool.not_eq_false'] at hnone
      exact ⟨(Interval.isEmpty_eq_false_iff p).mp (Bool.eq_false_iff.mpr hempty), hnone⟩

/-- A range has a span when it is not empty, has a bound, has addresses at its ends, and these are
    of one family and in order. -/
theorem toSpan_eq_ok_iff : toSpan (some ⟨p, order⟩) = .ok s ↔
    (Cut.lt order p.lower p.upper ∧ (p.lower.isBounded || p.upper.isBounded)) ∧
      ∃ first? last?, firstAbove ⟨p, order⟩ p.lower = .ok first? ∧
        lastBelow ⟨p, order⟩ p.upper = .ok last? ∧
        AddressSpan.between (first?.getD (familyFirst (last?.getD .unset)))
          (last?.getD (familyLast (first?.getD (familyFirst (last?.getD .unset))))) = s ∧
        s.isValid := by
  -- The first two conditions hold of every range that becomes a span, so they may be assumed.
  refine (and_iff_right_of_imp lt_and_isBounded_of_toSpan).symm.trans (and_congr_right ?_)
  rintro ⟨hne, hbounded⟩
  rw [toSpan_of_lt hne hbounded]
  simp only [Answer.bind_eq_ok, ← exists_and_left]
  refine exists₂_congr fun first? last? => and_congr_right fun _ => and_congr_right fun _ => ?_
  constructor
  · intro h
    split at h
    · next hvalid =>
      cases h
      exact ⟨rfl, hvalid⟩
    · cases h
  · rintro ⟨rfl, hvalid⟩
    exact if_pos hvalid

theorem isPlain_familyFirst (a : Address) : (familyFirst a).IsPlain := by
  unfold familyFirst
  split
  · exact isPlain_v4 _
  · exact isPlain_v6 _

theorem isPlain_familyLast (a : Address) : (familyLast a).IsPlain := by
  unfold familyLast
  split
  · exact isPlain_v4 _
  · exact isPlain_v6 _

/-- The place at which the family of an address starts. -/
theorem IsPlain.place_familyFirst {a : Address} (ha : a.IsPlain) :
    (familyFirst a).place = if a.place < 2 ^ 32 then 0 else 2 ^ 32 := by
  rcases (isPlain_iff a).mp ha with ⟨x, rfl⟩ | ⟨x, rfl⟩
  · rw [place_v4, if_pos x.isLt]
    exact place_firstV4
  · rw [place_v6, if_neg (by omega)]
    exact place_firstV6

/-- The place at which the family of an address ends. -/
theorem IsPlain.place_familyLast {a : Address} (ha : a.IsPlain) :
    (familyLast a).place = if a.place < 2 ^ 32 then 2 ^ 32 - 1 else count - 1 := by
  rcases (isPlain_iff a).mp ha with ⟨x, rfl⟩ | ⟨x, rfl⟩
  · rw [place_v4, if_pos x.isLt]
    exact place_lastV4
  · rw [place_v6, if_neg (by omega)]
    exact place_lastV6

/-- An address and all before it in its family are a proper span. -/
theorem proper_familyFirst {a : Address} (ha : a.IsPlain) :
    (⟨familyFirst a, a⟩ : AddressSpan).Proper := by
  have hplace := ha.place_familyFirst
  refine AddressSpan.proper_of_place_le (isPlain_familyFirst a) ha ?_ ?_
  · rw [(isPlain_familyFirst a).width_eq_iff ha]
    split at hplace <;> omega
  · show (familyFirst a).place ≤ a.place
    split at hplace <;> omega

/-- An address and all after it in its family are a proper span. -/
theorem proper_familyLast {a : Address} (ha : a.IsPlain) :
    (⟨a, familyLast a⟩ : AddressSpan).Proper := by
  have hplace := ha.place_familyLast
  have hcount := ha.place_lt_count
  refine AddressSpan.proper_of_place_le ha (isPlain_familyLast a) ?_ ?_
  · rw [ha.width_eq_iff (isPlain_familyLast a)]
    split at hplace <;> omega
  · show a.place ≤ (familyLast a).place
    split at hplace <;> omega

/-- Where the span of a range goes from, and where to.  At an end of the range without bound it goes
    to the end of the family of its other end. -/
inductive Ends (p : Interval Address) (s : AddressSpan) : Prop where
  | bounded (lower : p.lower.isBounded) (upper : p.upper.isBounded)
      (first : s.first.place = p.lower.place) (last : s.last.place + 1 = p.upper.place)
  | noUpper (upper : p.upper.isBounded = false) (place : p.upper.place = count)
      (first : s.first.place = p.lower.place) (last : s.last = familyLast s.first)
  | noLower (lower : p.lower.isBounded = false) (place : p.lower.place = 0)
      (first : s.first = familyFirst s.last) (last : s.last.place + 1 = p.upper.place)

/-- Where an interval has both bounds, its span has their places. -/
theorem Ends.places (h : Ends p s) (hlower : p.lower.isBounded) (hupper : p.upper.isBounded) :
    s.first.place = p.lower.place ∧ s.last.place + 1 = p.upper.place := by
  cases h with
  | bounded _ _ hfirst hlast => exact ⟨hfirst, hlast⟩
  | noUpper hnone =>
    rw [hnone] at hupper
    cases hupper
  | noLower hnone =>
    rw [hnone] at hlower
    cases hlower

/-- A range that becomes a span becomes a proper one, with the ends that it has itself or else with
    those of the family. -/
theorem ends_of_toSpan (hp : p.IsPlain) (h : toSpan (some ⟨p, order⟩) = .ok s) :
    s.Proper ∧ Ends p s := by
  obtain ⟨⟨hne, hbounded⟩, first?, last?, hfirst, hlast, rfl, hvalid⟩ := toSpan_eq_ok_iff.mp h
  refine ⟨AddressSpan.proper_between hvalid, ?_⟩
  have hlower := isBounded_of_firstAbove hfirst
  have hupper := isBounded_of_lastBelow hlast
  -- Each end was found, or there is no bound; the cases in which the search fails are not those of
  -- `h`.
  rcases firstAbove_cases ⟨p, order⟩ hp.lower (Cut.ne_top_of_lt hne) with
    ⟨a, hfirst', ha, haplace⟩ | ⟨hfirst', hplace⟩ | ⟨⟨e, hfirst'⟩, -⟩
  all_goals cases hfirst.symm.trans hfirst'
  · rcases lastBelow_cases ⟨p, order⟩ hp.upper (Cut.ne_bottom_of_lt hne) with
      ⟨b, hlast', hb, hbplace⟩ | ⟨hlast', hplace⟩ | ⟨⟨e, hlast'⟩, -⟩
    all_goals cases hlast.symm.trans hlast'
    · simp only [Option.getD_some, AddressSpan.between_eq ha hb]
      exact .bounded hlower hupper haplace hbplace
    · simp only [Option.getD_some, Option.getD_none,
        AddressSpan.between_eq ha (isPlain_familyLast a)]
      exact .noUpper hupper hplace haplace rfl
  · rcases lastBelow_cases ⟨p, order⟩ hp.upper (Cut.ne_bottom_of_lt hne) with
      ⟨b, hlast', hb, hbplace⟩ | ⟨hlast', -⟩ | ⟨⟨e, hlast'⟩, -⟩
    all_goals cases hlast.symm.trans hlast'
    · simp only [Option.getD_some, Option.getD_none,
        AddressSpan.between_eq (isPlain_familyFirst b) hb]
      exact .noLower hlower hplace rfl hbplace
    · rw [hlower, hupper] at hbounded
      cases hbounded

/-- The span of a range holds the addresses that the range has in the family of the span. -/
theorem contains_iff_of_toSpan (hp : p.IsPlain) (h : toSpan (some ⟨p, order⟩) = .ok s)
    (a : Address) : s.contains a ↔ a.IsPlain ∧ a.width = s.first.width ∧ p.contains order a := by
  obtain ⟨hs, hends⟩ := ends_of_toSpan hp h
  rw [hs.contains_iff]
  refine and_congr_right fun ha => ?_
  rw [hp.contains_iff ha, ha.width_eq_iff hs.first]
  -- Both ends of a span are on one side of the border between the families.
  have hfamily := (hs.first.width_eq_iff hs.last).mp hs.width_eq
  have hle := hs.place_le
  have hcount := ha.place_lt_count
  cases hends with
  | bounded hlower hupper hfirst hlast => omega
  | noUpper hupper hplace hfirst hlast =>
    have hlast' := hs.first.place_familyLast
    rw [← hlast] at hlast'
    split at hlast' <;> omega
  | noLower hlower hplace hfirst hlast =>
    have hfirst' := hs.last.place_familyFirst
    rw [← hfirst] at hfirst'
    split at hfirst' <;> omega

/-- A range with bounds on both sides that has a span has addresses of one family only. -/
theorem width_eq_of_toSpan (hp : p.IsPlain) (h : toSpan (some ⟨p, order⟩) = .ok s)
    (hlower : p.lower.isBounded) (hupper : p.upper.isBounded) {a : Address} (ha : a.IsPlain)
    (hpa : p.contains order a) : a.width = s.first.width := by
  obtain ⟨hs, hends⟩ := ends_of_toSpan hp h
  have hfamily := (hs.first.width_eq_iff hs.last).mp hs.width_eq
  obtain ⟨hfirst, hlast⟩ := hends.places hlower hupper
  rw [hp.contains_iff ha] at hpa
  rw [ha.width_eq_iff hs.first]
  omega

/-- A range that has a bound and holds an address, and addresses of one family only if it has two
    bounds. -/
structure NamesFamily (p : Interval Address) : Prop where
  isBounded : p.lower.isBounded || p.upper.isBounded
  inhabited : ∃ a : Address, a.IsPlain ∧ p.contains order a
  family : p.lower.isBounded → p.upper.isBounded → ∀ a b : Address, a.IsPlain → b.IsPlain →
    p.contains order a → p.contains order b → a.width = b.width

/-- Only a range that names one family becomes a span. -/
theorem namesFamily_of_toSpan (hp : p.IsPlain) (h : toSpan (some ⟨p, order⟩) = .ok s) :
    NamesFamily p where
  isBounded := (lt_and_isBounded_of_toSpan h).2
  inhabited :=
    have hfirst := (contains_iff_of_toSpan hp h _).mp (ends_of_toSpan hp h).1.contains_first
    ⟨s.first, hfirst.1, hfirst.2.2⟩
  family hlower hupper _ _ ha hb hpa hpb :=
    (width_eq_of_toSpan hp h hlower hupper ha hpa).trans
      (width_eq_of_toSpan hp h hlower hupper hb hpb).symm

/-- Each range that names one family becomes a span. -/
theorem NamesFamily.exists_toSpan (hp : p.IsPlain) (h : NamesFamily p) :
    ∃ s, toSpan (some ⟨p, order⟩) = .ok s := by
  obtain ⟨x, hx, hpx⟩ := h.inhabited
  have hne : Cut.lt order p.lower p.upper := by
    obtain ⟨hlower, hupper⟩ := (Interval.contains_iff_spans _ _).mp hpx
    grind
  rw [hp.contains_iff hx] at hpx
  have hcount := hp.upper.place_le_count
  -- It is enough to have addresses at both ends that make a proper span.
  have hspan : ∀ first? last? a b, firstAbove ⟨p, order⟩ p.lower = .ok first? →
      lastBelow ⟨p, order⟩ p.upper = .ok last? → first?.getD (familyFirst (last?.getD .unset)) = a →
      last?.getD (familyLast a) = b → (⟨a, b⟩ : AddressSpan).Proper →
      ∃ s, toSpan (some ⟨p, order⟩) = .ok s := by
    rintro first? last? a b hfirst hlast rfl rfl hs
    refine ⟨_, toSpan_eq_ok_iff.mpr ⟨⟨hne, h.isBounded⟩, first?, last?, hfirst, hlast, rfl, ?_⟩⟩
    rw [AddressSpan.between_eq hs.first hs.last]
    exact hs.isValid
  rcases firstAbove_cases ⟨p, order⟩ hp.lower (Cut.ne_top_of_lt hne) with
    ⟨a, hfirst, ha, haplace⟩ | ⟨hfirst, -⟩ | ⟨-, hlower⟩
  · rcases lastBelow_cases ⟨p, order⟩ hp.upper (Cut.ne_bottom_of_lt hne) with
      ⟨b, hlast, hb, hbplace⟩ | ⟨hlast, -⟩ | ⟨-, hupper⟩
    · have hlower := isBounded_of_firstAbove hfirst
      have hupper := isBounded_of_lastBelow hlast
      have hwidth := h.family hlower hupper a b ha hb ((hp.contains_iff ha).mpr (by omega))
        ((hp.contains_iff hb).mpr (by omega))
      refine hspan _ _ a b hfirst hlast rfl rfl (AddressSpan.proper_of_place_le ha hb hwidth ?_)
      show a.place ≤ b.place
      omega
    · exact hspan _ _ a _ hfirst hlast rfl rfl (proper_familyLast ha)
    · -- No address is before the upper end, but `x` is.
      omega
  · rcases lastBelow_cases ⟨p, order⟩ hp.upper (Cut.ne_bottom_of_lt hne) with
      ⟨b, hlast, hb, hbplace⟩ | ⟨hlast, -⟩ | ⟨-, hupper⟩
    · exact hspan _ _ _ b hfirst hlast rfl rfl (proper_familyFirst hb)
    · have hbounded := h.isBounded
      rw [isBounded_of_firstAbove hfirst, isBounded_of_lastBelow hlast] at hbounded
      cases hbounded
    · omega
  · omega

/-- A range has a span exactly when it has a bound, holds an address, and names one family. -/
theorem exists_toSpan_iff (hp : p.IsPlain) :
    (∃ s, toSpan (some ⟨p, order⟩) = .ok s) ↔ NamesFamily p :=
  ⟨fun ⟨_, h⟩ => namesFamily_of_toSpan hp h, fun h => h.exists_toSpan hp⟩

/-! ### Half-open forms -/

/-- The half-open form of a cut beside a plain address is the cut before the address at the same
    place. -/
theorem canonical_cases {c : Cut Address} (hc : c.IsPlain) (hbounded : c.isBounded) :
    (∃ v, v.IsPlain ∧ c.canonical domain = .below v ∧ v.place = c.place) ∨
      c.canonical domain = .top ∧ c.place = count := by
  cases c with
  | bottom => cases hbounded
  | below v => exact Or.inl ⟨v, hc v rfl, rfl, rfl⟩
  | above v =>
    -- The half-open form counts on by one address, which keeps the place of the cut.
    have hnext := (hc v rfl).next?_cases
    cases h : v.next? with
    | some w =>
      rw [h] at hnext
      exact Or.inl ⟨w, hnext.1, Cut.canonical_above_some h, hnext.2⟩
    | none =>
      rw [h] at hnext
      exact Or.inr ⟨Cut.canonical_above_none h, hnext⟩
  | top => cases hbounded

/-- The half-open form of a cut has the place of the cut. -/
theorem place_canonical {c : Cut Address} (hc : c.IsPlain) (hbounded : c.isBounded) :
    (c.canonical domain).place = c.place := by
  rcases canonical_cases hc hbounded with ⟨v, -, h, hplace⟩ | ⟨h, hplace⟩
  · rw [h, Cut.place_below, hplace]
  · rw [h, Cut.place_top, hplace]

/-- Cuts beside plain addresses that are at one place have the same half-open form. -/
theorem canonical_eq_of_place_eq {c d : Cut Address} (hc : c.IsPlain) (hd : d.IsPlain)
    (hcb : c.isBounded) (hdb : d.isBounded) (h : c.place = d.place) :
    c.canonical domain = d.canonical domain := by
  rcases canonical_cases hc hcb with ⟨v, hv, hcv, hvplace⟩ | ⟨hctop, hcount⟩
  · rcases canonical_cases hd hdb with ⟨w, hw, hdw, hwplace⟩ | ⟨-, hcount⟩
    · rw [hcv, hdw, hv.eq_of_place_eq hw (by omega)]
    · have hlt := hv.place_lt_count
      omega
  · rcases canonical_cases hd hdb with ⟨w, hw, -, hwplace⟩ | ⟨hdtop, -⟩
    · have hlt := hw.place_lt_count
      omega
    · rw [hctop, hdtop]

/-- The range of the span of a range with two bounds is the half-open form of the range. -/
theorem ofSpan_eq_canonical (hp : p.IsPlain) (h : toSpan (some ⟨p, order⟩) = .ok s)
    (hlower : p.lower.isBounded) (hupper : p.upper.isBounded) :
    ofSpan s = .ok (Range.canonical domain ⟨p, order⟩) := by
  obtain ⟨hs, hends⟩ := ends_of_toSpan hp h
  obtain ⟨hfirst, hlast⟩ := hends.places hlower hupper
  have hlower' : (Cut.below s.first).canonical domain = p.lower.canonical domain :=
    canonical_eq_of_place_eq (Cut.isPlain_below hs.first) hp.lower rfl hlower hfirst
  have hupper' : (Cut.above s.last).canonical domain = p.upper.canonical domain :=
    canonical_eq_of_place_eq (Cut.isPlain_above hs.last) hp.upper rfl hupper hlast
  rw [ofSpan, if_pos hs.isValid]
  simp only [Range.canonical, Interval.canonical, Interval.closed, hlower', hupper']

/-- The range of a span has that span.  Its upper end is the address after the last one, also where
    that is of the other family, or where there is none. -/
theorem toSpan_ofSpan (hs : s.Proper) : ∃ r, ofSpan s = .ok r ∧ toSpan (some r) = .ok s := by
  obtain ⟨r, hr, hregular, hne, -⟩ := ofSpan_spec hs
  refine ⟨r, hr, ?_⟩
  rw [ofSpan, if_pos hs.isValid] at hr
  cases hr
  have hlower : ((Interval.closed s.first s.last).canonical domain).lower.place = s.first.place :=
    rfl
  have hupper : ((Interval.closed s.first s.last).canonical domain).upper.place =
      s.last.place + 1 :=
    place_canonical (Cut.isPlain_above hs.last) rfl
  have hle := hs.place_le
  have hfamily := (hs.first.width_eq_iff hs.last).mp hs.width_eq
  -- The half-open form stays in the family of the span, also where the span ends with its family.
  have hpart : InFamily ((Interval.closed s.first s.last).canonical domain) := by
    refine ⟨hregular.isPlain, hne, ?_⟩
    rw [hlower, hupper]
    omega
  obtain ⟨s', hs', hproper, hfirst, hlast⟩ := hpart.exists_toSpan (by omega)
  -- Both spans have the same places, and a plain address is determined by its place.
  have hsame : s' = s := by
    obtain ⟨first, last⟩ := s'
    obtain rfl := hproper.first.eq_of_place_eq hs.first (hfirst.trans hlower)
    obtain rfl := hproper.last.eq_of_place_eq hs.last (by omega)
    rfl
  rw [hsame] at hs'
  exact hs'

/-! ### Both ways around -/

theorem equal_refl (r : Range Address) (hr : r.cmp = order) :
    (Reading.ofRange r).equal (.ofRange r) := by
  have hsame : ∀ c : Cut Address, Cut.same order c c := fun c =>
    Ordering.isEq_iff_eq_eq.mpr Std.ReflCmp.compare_self
  show r.toInterval.hasBoundsOf r.cmp r.toInterval
  rw [hr, Interval.hasBoundsOf, hsame, hsame]
  rfl

/-- **Ranges and spans survive the way to each other and back.**  A valid span of either family
    becomes a range, and that range becomes the span again.  A range between plain addresses, with
    open, closed or no bounds, becomes a span exactly when it has a bound, holds an address, and is
    of one family if it has two bounds.  The span holds the addresses that the range has in the
    family of the span.  With two bounds these are all its addresses, and the span becomes the
    half-open form of the range again. -/
theorem span_roundTrip :
    (∀ s : AddressSpan, s.Proper → ∃ r, ofSpan s = .ok r ∧ toSpan (some r) = .ok s) ∧
      ∀ r : Range Address, r.cmp = order → r.toInterval.IsPlain →
        ((∃ s, toSpan (some r) = .ok s) ↔ NamesFamily r.toInterval) ∧
          ∀ s, toSpan (some r) = .ok s →
            (∀ a, s.contains a ↔ a.IsPlain ∧ a.width = s.first.width ∧ r.contains a) ∧
              (r.lower.isBounded → r.upper.isBounded →
                (∀ a, s.contains a ↔ a.IsPlain ∧ r.contains a) ∧
                ∃ q, ofSpan s = .ok q ∧ q = r.canonical domain ∧
                  (Reading.ofRange q).equal (.ofRange (r.canonical domain))) := by
  refine ⟨fun s hs => toSpan_ofSpan hs, ?_⟩
  rintro ⟨p, _⟩ rfl hp
  refine ⟨exists_toSpan_iff hp,
    fun s h => ⟨contains_iff_of_toSpan hp h, fun hlower hupper => ⟨fun a => ?_, ?_⟩⟩⟩
  · rw [contains_iff_of_toSpan hp h a]
    refine and_congr_right fun ha => and_iff_right_of_imp ?_
    exact width_eq_of_toSpan hp h hlower hupper ha
  · exact ⟨_, ofSpan_eq_canonical hp h hlower hupper, rfl, equal_refl _ rfl⟩

/-- The last addresses of the 32-bit family, from 255.255.255.240 on. -/
def sampleLastV4 : AddressSpan :=
  ⟨.v4 0xfffffff0, lastV4⟩

/-- The addresses after 255.255.255.239 and before the first 128-bit address. -/
def sampleOpen : Range Address :=
  ⟨⟨.above (.v4 0xffffffef), .below firstV6⟩, order⟩

/-- All addresses before the 128-bit address with number 16, in both families. -/
def sampleBefore : Range Address :=
  ⟨⟨.bottom, .below (.v6 0x10 "")⟩, order⟩

/-- A span at the end of its family, an open range that has this span, and a range without lower
    bound that goes through both families. -/
theorem sampleLastV4_roundTrip :
    (sampleLastV4.Proper ∧ ∃ r, ofSpan sampleLastV4 = .ok r ∧ toSpan (some r) = .ok sampleLastV4) ∧
      (toSpan (some sampleOpen) = .ok sampleLastV4 ∧
        (∀ a, sampleLastV4.contains a ↔ a.IsPlain ∧ sampleOpen.contains a) ∧
        ofSpan sampleLastV4 = .ok (sampleOpen.canonical domain)) ∧
      (toSpan (some sampleBefore) = .ok ⟨firstV6, .v6 0xf ""⟩ ∧
        ∀ a, (⟨firstV6, .v6 0xf ""⟩ : AddressSpan).contains a ↔
          a.IsPlain ∧ a.width = 128 ∧ sampleBefore.contains a) := by
  have hproper : sampleLastV4.Proper := ⟨isPlain_v4 _, isPlain_v4 _, by decide⟩
  have hopen : toSpan (some sampleOpen) = .ok sampleLastV4 := rfl
  have hbefore : toSpan (some sampleBefore) = .ok ⟨firstV6, .v6 0xf ""⟩ := rfl
  obtain ⟨-, hopenSpans⟩ := span_roundTrip.2 sampleOpen rfl
    ⟨Cut.isPlain_above (isPlain_v4 _), Cut.isPlain_below isPlain_firstV6⟩
  obtain ⟨-, hbeforeSpans⟩ := span_roundTrip.2 sampleBefore rfl ⟨Cut.isPlain_bottom,
    Cut.isPlain_below (isPlain_v6 _)⟩
  obtain ⟨hcontains, q, hq, rfl, -⟩ := (hopenSpans _ hopen).2 rfl rfl
  exact ⟨⟨hproper, span_roundTrip.1 _ hproper⟩, ⟨hopen, hcontains, hq⟩, hbefore,
    (hbeforeSpans _ hbefore).1⟩

end Allotment.Address
