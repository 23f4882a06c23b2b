import Allotment.Address.Conversion
import Allotment.Proofs.Address.Set
import Allotment.Proofs.IntervalSet.Equality

namespace Allotment.Address

/-!
# Between ranges and spans

A set of ranges is turned into spans member by member and family by family.  A part of a member is
left out when it is empty, and that is decided by its cuts.  A part that is not empty need not hold
an address: between the cut above an address and the cut below the next one there is none.  Such a
part has no span, and then the whole set has none.

* `InFamily.exists_toSpan_iff`, `InFamily.toSpan_spec` — when a part of one family has a span, and
  which;
* `parts`, `contains_parts_iff` — the parts of an interval;
* `Populated`, `toSet_isOk_iff_populated` — when a set of ranges has spans, and which;
* `Regular`, `ofSpan_spec`, `setOfSpans_spec` — ranges in half-open form, and the way back;
* `ofSet_toSet_equal` — sets of such ranges survive both ways.
-/

/-! ### The span of a part -/

/-- An interval between plain addresses of one family whose cuts are in order. -/
structure InFamily (p : Interval Address) : Prop where
  plain : p.IsPlain
  nonempty : Cut.lt order p.lower p.upper
  family : p.upper.place ≤ 2 ^ 32 ∨ 2 ^ 32 ≤ p.lower.place

variable {p : Interval Address}

/-- The first address above a cut stands at the place of the cut. -/
theorem firstAbove_cases (r : Range Address) {c : Cut Address} (hc : c.IsPlain) (hne : c ≠ .top) :
    (∃ a, firstAbove r c = .ok (some a) ∧ a.IsPlain ∧ a.place = c.place) ∨
      (firstAbove r c = .ok none ∧ c.place = 0) ∨
      (∃ e, firstAbove r c = .error e) ∧ c.place = count := by
  cases c with
  | bottom => exact Or.inr (Or.inl ⟨rfl, rfl⟩)
  | below v => exact Or.inl ⟨v, rfl, hc v rfl, rfl⟩
  | above v =>
    -- The first address above `v` is the one after it; only after the last one there is none.
    have hnext := (hc v rfl).next?_cases
    simp only [firstAbove]
    cases h : v.next? with
    | some w =>
      rw [h] at hnext
      exact Or.inl ⟨w, rfl, hnext⟩
    | none =>
      rw [h] at hnext
      exact Or.inr (Or.inr ⟨⟨_, rfl⟩, hnext⟩)
  | top => exact absurd rfl hne

/-- The last address below a cut stands just before the place of the cut. -/
theorem lastBelow_cases (r : Range Address) {c : Cut Address} (hc : c.IsPlain) (hne : c ≠ .bottom) :
    (∃ a, lastBelow r c = .ok (some a) ∧ a.IsPlain ∧ a.place + 1 = c.place) ∨
      (lastBelow r c = .ok none ∧ c.place = count) ∨
      (∃ e, lastBelow r c = .error e) ∧ c.place = 0 := by
  cases c with
  | bottom => exact absurd rfl hne
  | below v =>
    -- The last address below `v` is the one before it; only before the first one there is none.
    have hprevious := (hc v rfl).previous?_cases
    simp only [lastBelow]
    cases h : v.previous? with
    | some w =>
      rw [h] at hprevious
      exact Or.inl ⟨w, rfl, hprevious⟩
    | none =>
      rw [h] at hprevious
      exact Or.inr (Or.inr ⟨⟨_, rfl⟩, hprevious⟩)
  | above v => exact Or.inl ⟨v, rfl, hc v rfl, rfl⟩
  | top => exact Or.inr (Or.inl ⟨rfl, rfl⟩)

/-- The first 2 ^ 32 places are those of the 32-bit family. -/
theorem familyFirst_of_place_lt {a : Address} (ha : a.IsPlain) (h : a.place < 2 ^ 32) :
    familyFirst a = firstV4 := by
  rcases (isPlain_iff a).mp ha with ⟨x, rfl⟩ | ⟨x, rfl⟩
  · rfl
  · rw [place_v6] at h
    omega

/-- The other places are those of the 128-bit family. -/
theorem familyLast_of_le_place {a : Address} (ha : a.IsPlain) (h : 2 ^ 32 ≤ a.place) :
    familyLast a = lastV6 := by
  rcases (isPlain_iff a).mp ha with ⟨x, rfl⟩ | ⟨x, rfl⟩
  · have hx := x.isLt
    rw [place_v4] at h
    omega
  · rfl

/-- A part of a family has a cut beside an address, since no family has all places. -/
theorem InFamily.isBounded (hp : InFamily p) : p.lower.isBounded || p.upper.isBounded := by
  obtain ⟨lower, upper⟩ := p
  have hne := hp.nonempty
  have hfamily := hp.family
  cases lower with
  | below v => rfl
  | above v => rfl
  | top => exact absurd rfl (Cut.ne_top_of_lt hne)
  | bottom =>
    cases upper with
    | below v => rfl
    | above v => rfl
    | bottom => cases hne
    | top =>
      -- Without any end the interval reaches into both families.
      simp only [Cut.place_top, Cut.place_bottom, count] at hfamily
      omega

/-- The span of a range that is not empty and has a bound goes between the two ends, as far as there
    are any. -/
theorem toSpan_of_lt (hne : Cut.lt order p.lower p.upper)
    (hbounded : p.lower.isBounded || p.upper.isBounded) :
    toSpan (some ⟨p, order⟩) = (firstAbove ⟨p, order⟩ p.lower >>= fun first? =>
      lastBelow ⟨p, order⟩ p.upper >>= fun last? =>
        let first := first?.getD (familyFirst (last?.getD .unset))
        let s := AddressSpan.between first (last?.getD (familyLast first))
        if s.isValid then .ok s else .error (.manyFamilies ⟨p, order⟩)) := by
  have hempty : Range.isEmpty ⟨p, order⟩ = false := (Interval.isEmpty_eq_false_iff p).mpr hne
  have hsome : (!p.lower.isBounded && !p.upper.isBounded) = false := by
    rw [← Bool.not_or, hbounded]
    rfl
  simp only [toSpan, hempty, hsome]
  rfl

/-- A part of a family with places has a span, from its first place to its last one. -/
theorem InFamily.exists_toSpan (hp : InFamily p) (hlt : p.lower.place < p.upper.place) :
    ∃ s, toSpan (some ⟨p, order⟩) = .ok s ∧ s.Proper ∧ s.first.place = p.lower.place ∧
      s.last.place + 1 = p.upper.place := by
  have hfamily := hp.family
  have hcount := hp.plain.upper.place_le_count
  have hborder : 2 ^ 32 < count := by
    unfold count
    omega
  -- It is enough to find the two ends, one of which may be the end of the family.
  suffices hends : ∃ first? last? a b, firstAbove ⟨p, order⟩ p.lower = .ok first? ∧
      lastBelow ⟨p, order⟩ p.upper = .ok last? ∧ first?.getD (familyFirst (last?.getD .unset)) = a ∧
      last?.getD (familyLast a) = b ∧ a.IsPlain ∧ b.IsPlain ∧ a.place = p.lower.place ∧
      b.place + 1 = p.upper.place by
    obtain ⟨first?, last?, a, b, hfirst, hlast, hfirst', hlast', ha, hb, haplace, hbplace⟩ := hends
    have hproper : (⟨a, b⟩ : AddressSpan).Proper := by
      refine AddressSpan.proper_of_place_le ha hb ((ha.width_eq_iff hb).mpr ?_) ?_
      · omega
      · show a.place ≤ b.place
        omega
    refine ⟨⟨a, b⟩, ?_, hproper, haplace, hbplace⟩
    rw [toSpan_of_lt hp.nonempty hp.isBounded, hfirst, hlast]
    show (if (AddressSpan.between (first?.getD _) (last?.getD (familyLast (first?.getD _)))).isValid
      then _ else _) = _
    rw [hfirst', hlast', AddressSpan.between_eq ha hb, if_pos hproper.isValid]
  rcases firstAbove_cases ⟨p, order⟩ hp.plain.lower (Cut.ne_top_of_lt hp.nonempty) with
    ⟨a, hfirst, ha, haplace⟩ | ⟨hfirst, hlower⟩ | ⟨-, hlower⟩
  · rcases lastBelow_cases ⟨p, order⟩ hp.plain.upper (Cut.ne_bottom_of_lt hp.nonempty) with
      ⟨b, hlast, hb, hbplace⟩ | ⟨hlast, hupper⟩ | ⟨-, hupper⟩
    · exact ⟨some a, some b, a, b, hfirst, hlast, rfl, rfl, ha, hb, haplace, hbplace⟩
    · have hV6 : familyLast a = lastV6 := familyLast_of_le_place ha (by omega)
      exact ⟨some a, none, a, lastV6, hfirst, hlast, rfl, hV6, ha, ⟨rfl, rfl⟩, haplace, hupper.symm⟩
    · omega
  · rcases lastBelow_cases ⟨p, order⟩ hp.plain.upper (Cut.ne_bottom_of_lt hp.nonempty) with
      ⟨b, hlast, hb, hbplace⟩ | ⟨hlast, hupper⟩ | ⟨-, hupper⟩
    · have hV4 : familyFirst b = firstV4 := familyFirst_of_place_lt hb (by omega)
      exact ⟨none, some b, firstV4, b, hfirst, hlast, hV4, rfl, ⟨rfl, rfl⟩, hb, hlower.symm,
        hbplace⟩
    · omega
    · omega
  · omega

/-- A part of a family without a place has no span: there is no address above its lower cut, or none
    below its upper one, or the first of the two comes after the second. -/
theorem InFamily.toSpan_eq_error (hp : InFamily p) (hle : p.upper.place ≤ p.lower.place) :
    ∃ e, toSpan (some ⟨p, order⟩) = .error e := by
  rw [toSpan_of_lt hp.nonempty hp.isBounded]
  have hpos : 0 < count := by
    unfold count
    omega
  rcases firstAbove_cases ⟨p, order⟩ hp.plain.lower (Cut.ne_top_of_lt hp.nonempty) with
    ⟨a, hfirst, ha, haplace⟩ | ⟨hfirst, hlower⟩ | ⟨⟨e, hfirst⟩, hlower⟩
  · have hlt := ha.place_lt_count
    rcases lastBelow_cases ⟨p, order⟩ hp.plain.upper (Cut.ne_bottom_of_lt hp.nonempty) with
      ⟨b, hlast, hb, hbplace⟩ | ⟨hlast, hupper⟩ | ⟨⟨e, hlast⟩, hupper⟩
    · rw [hfirst, hlast]
      -- Both ends are found, but the last address comes before the first one.
      have hinvalid : ¬ (AddressSpan.between a b).isValid := by
        intro hvalid
        have hplace := (AddressSpan.proper_between hvalid).place_le
        rw [AddressSpan.between_eq ha hb] at hplace
        simp only at hplace
        omega
      exact ⟨_, if_neg hinvalid⟩
    · omega
    · rw [hfirst, hlast]
      exact ⟨e, rfl⟩
  · rcases lastBelow_cases ⟨p, order⟩ hp.plain.upper (Cut.ne_bottom_of_lt hp.nonempty) with
      ⟨b, hlast, hb, hbplace⟩ | ⟨hlast, hupper⟩ | ⟨⟨e, hlast⟩, hupper⟩
    · omega
    · omega
    · rw [hfirst, hlast]
      exact ⟨e, rfl⟩
  · rw [hfirst]
    exact ⟨e, rfl⟩

/-- A part of a family has a span exactly when it holds an address. -/
theorem InFamily.exists_toSpan_iff (hp : InFamily p) :
    (∃ s, toSpan (some ⟨p, order⟩) = .ok s) ↔ ∃ a : Address, a.IsPlain ∧ p.contains order a := by
  rw [hp.plain.exists_contains_iff]
  constructor
  · rintro ⟨s, hs⟩
    by_contra hle
    obtain ⟨e, he⟩ := hp.toSpan_eq_error (Nat.le_of_not_lt hle)
    rw [hs] at he
    cases he
  · intro hlt
    obtain ⟨s, hs, -⟩ := hp.exists_toSpan hlt
    exact ⟨s, hs⟩

/-- The span of a part of a family holds the addresses of the part. -/
theorem InFamily.toSpan_spec (hp : InFamily p) {s : AddressSpan}
    (h : toSpan (some ⟨p, order⟩) = .ok s) :
    s.Proper ∧ ∀ a, s.contains a ↔ a.IsPlain ∧ p.contains order a := by
  obtain ⟨s', hs', hproper, hfirst, hlast⟩ :=
    hp.exists_toSpan (hp.plain.exists_contains_iff.mp (hp.exists_toSpan_iff.mp ⟨s, h⟩))
  obtain rfl := Except.ok.inj (h.symm.trans hs')
  refine ⟨hproper, fun a => ?_⟩
  rw [hproper.contains_iff]
  refine and_congr_right fun ha => ?_
  rw [hp.plain.contains_iff ha]
  omega

/-! ### The parts of an interval -/

/-- The parts of an interval in the two families, without those that are empty. -/
def parts (r : Interval Address) : List (Interval Address) :=
  (families.filterMap fun f => r.meet? order f).filter fun p => !p.isEmpty order

variable {r : Interval Address}

/-- A part is what an interval has in common with a family, unless that is empty. -/
theorem mem_parts :
    p ∈ parts r ↔ (∃ f ∈ families, r.meet? order f = some p) ∧ Cut.lt order p.lower p.upper := by
  rw [parts, List.mem_filter, List.mem_filterMap, Bool.not_eq_true', Interval.isEmpty_eq_false_iff]

/-- No family begins or ends at an address with a zone. -/
theorem isPlain_of_mem_families {f : Interval Address} (hf : f ∈ families) : f.IsPlain := by
  simp only [families, List.mem_cons, List.not_mem_nil, or_false] at hf
  rcases hf with rfl | rfl
  · exact ⟨Cut.isPlain_bottom, Cut.isPlain_above isPlain_lastV4⟩
  · exact ⟨Cut.isPlain_below isPlain_firstV6, Cut.isPlain_top⟩

/-- The parts of a plain interval lie in one family each. -/
theorem inFamily_of_mem_parts (hr : r.IsPlain) (hp : p ∈ parts r) : InFamily p := by
  obtain ⟨⟨f, hf, hmeet⟩, hne⟩ := mem_parts.mp hp
  have hplain := isPlain_of_mem_families hf
  unfold Interval.meet? at hmeet
  split at hmeet
  case isFalse => cases hmeet
  obtain rfl := Option.some.inj hmeet
  have hlower := hr.lower.max hplain.lower
  have hupper := hr.upper.min hplain.upper
  refine ⟨⟨hlower, hupper⟩, hne, ?_⟩
  -- A part is within its family, and the families meet at one place.
  simp only [families, List.mem_cons, List.not_mem_nil, or_false] at hf
  rcases hf with rfl | rfl
  · exact Or.inl (hupper.place_le_of_le hplain.upper (Cut.min_le_right _ _))
  · exact Or.inr (hplain.lower.place_le_of_le hlower (Cut.le_max_right _ _))

/-- A part starts where the interval does, or where its family does. -/
theorem lower_of_mem_parts (hp : p ∈ parts r) : p.lower = r.lower ∨ p.lower = .below firstV6 := by
  obtain ⟨⟨f, hf, hmeet⟩, -⟩ := mem_parts.mp hp
  unfold Interval.meet? at hmeet
  split at hmeet
  case isFalse => cases hmeet
  obtain rfl := Option.some.inj hmeet
  simp only [families, List.mem_cons, List.not_mem_nil, or_false] at hf
  rcases hf with rfl | rfl
  · -- The 32-bit family starts before all addresses, so the later start is that of the interval.
    left
    show Cut.max order r.lower .bottom = r.lower
    rw [Cut.max_eq, if_pos (Cut.bottom_le _)]
  · show Cut.max order r.lower (.below firstV6) = r.lower ∨
      Cut.max order r.lower (.below firstV6) = .below firstV6
    rw [Cut.max_eq]
    split
    · exact Or.inl rfl
    · exact Or.inr rfl

/-- Each plain address belongs to a family. -/
theorem exists_family {a : Address} (ha : a.IsPlain) : ∃ f ∈ families, f.contains order a := by
  by_cases hplace : a.place < 2 ^ 32
  · refine ⟨⟨.bottom, .above lastV4⟩, by simp [families], ?_⟩
    rw [(isPlain_of_mem_families (by simp [families])).contains_iff ha]
    exact ⟨Nat.zero_le _, hplace⟩
  · refine ⟨⟨.below firstV6, .top⟩, by simp [families], ?_⟩
    rw [(isPlain_of_mem_families (by simp [families])).contains_iff ha]
    exact ⟨Nat.le_of_not_lt hplace, ha.place_lt_count⟩

/-- The parts of an interval hold what the interval does. -/
theorem contains_parts_iff {a : Address} (ha : a.IsPlain) :
    (∃ p ∈ parts r, p.contains order a) ↔ r.contains order a := by
  simp only [Interval.contains_iff_spans, mem_parts]
  constructor
  · rintro ⟨p, ⟨⟨f, -, hmeet⟩, -⟩, hspan⟩
    exact ((Interval.spans_meet?_iff r f _).mp ⟨p, hmeet, hspan⟩).1
  · intro hspan
    obtain ⟨f, hf, hfa⟩ := exists_family ha
    rw [Interval.contains_iff_spans] at hfa
    obtain ⟨p, hmeet, hp⟩ := (Interval.spans_meet?_iff r f _).mpr ⟨hspan, hfa⟩
    refine ⟨p, ⟨⟨f, hf, hmeet⟩, ?_⟩, hp⟩
    unfold Interval.Spans at hp
    grind

/-- The spans of an interval are those of its parts. -/
theorem spansOf_eq (r : Interval Address) :
    spansOf ⟨r, order⟩ = (parts r).mapM fun p => toSpan (some ⟨p, order⟩) :=
  rfl

/-- An interval of which each part holds an address, so that no part is a gap between two
    addresses. -/
def Populated (r : Interval Address) : Prop :=
  ∀ p ∈ parts r, ∃ a : Address, a.IsPlain ∧ p.contains order a

/-- An interval has spans exactly when each of its parts has an address. -/
theorem exists_spansOf_iff (hr : r.IsPlain) :
    (∃ ss, spansOf ⟨r, order⟩ = .ok ss) ↔ Populated r := by
  rw [spansOf_eq, Answer.exists_mapM_eq_ok_iff]
  exact forall₂_congr fun p hp => (inFamily_of_mem_parts hr hp).exists_toSpan_iff

/-- The spans of an interval have its plain addresses, and no others. -/
theorem spansOf_spec (hr : r.IsPlain) {ss : List AddressSpan} (h : spansOf ⟨r, order⟩ = .ok ss) :
    (∀ s ∈ ss, s.Proper) ∧ ∀ a, (∃ s ∈ ss, s.contains a) ↔ a.IsPlain ∧ r.contains order a := by
  rw [spansOf_eq] at h
  have hmem := Answer.mem_iff_of_mapM_eq_ok h
  constructor
  · intro s hs
    obtain ⟨p, hp, hspan⟩ := (hmem s).mp hs
    exact ((inFamily_of_mem_parts hr hp).toSpan_spec hspan).1
  · intro a
    constructor
    · rintro ⟨s, hs, hcontains⟩
      obtain ⟨p, hp, hspan⟩ := (hmem s).mp hs
      obtain ⟨ha, hpa⟩ := (((inFamily_of_mem_parts hr hp).toSpan_spec hspan).2 a).mp hcontains
      exact ⟨ha, (contains_parts_iff ha).mp ⟨p, hp, hpa⟩⟩
    · -- The part with the address has a span, for all parts have one.
      rintro ⟨ha, hra⟩
      obtain ⟨p, hp, hpa⟩ := (contains_parts_iff ha).mpr hra
      obtain ⟨s, hspan⟩ := Answer.exists_mapM_eq_ok_iff.mp ⟨ss, h⟩ p hp
      exact ⟨s, (hmem s).mpr ⟨p, hp, hspan⟩,
        (((inFamily_of_mem_parts hr hp).toSpan_spec hspan).2 a).mpr ⟨ha, hpa⟩⟩

/-! ### Sets of ranges as spans -/

variable {w : View Address}

/-- All ranges of a sound view are read in its own order. -/
theorem ranges_eq (hw : w.Sound order) : w.ranges = w.intervals.map fun i => ⟨i, order⟩ := by
  unfold View.ranges View.cmp
  rw [hw.order]

/-- A view becomes the set of the spans of all its ranges. -/
theorem toSet_eq_ok_iff {ts : AddressSet} :
    toSet w = .ok ts ↔
      ∃ ss, w.ranges.mapM spansOf = .ok ss ∧ AddressSet.ofSpans ss.flatten = ts := by
  unfold toSet
  rw [Answer.bind_eq_ok]
  refine exists_congr fun ss => and_congr_right fun _ => ?_
  show Except.ok (AddressSet.ofSpans ss.flatten) = .ok ts ↔ _
  rw [Except.ok.injEq]

/-- A set of ranges has spans when each part of each range holds an address. -/
theorem exists_toSet_iff (hw : w.Sound order) (hplain : ∀ r ∈ w.intervals, r.IsPlain) :
    (∃ ts, toSet w = .ok ts) ↔ ∀ r ∈ w.intervals, Populated r := by
  simp only [toSet_eq_ok_iff]
  rw [exists_comm]
  simp only [exists_and_left, exists_eq', and_true]
  rw [Answer.exists_mapM_eq_ok_iff, ranges_eq hw, List.forall_mem_map]
  exact forall₂_congr fun r hr => exists_spansOf_iff (hplain r hr)

/-- The spans of a set of ranges are in order and apart, and hold the addresses of the set. -/
theorem toSet_spec (hw : w.Sound order) (hplain : ∀ r ∈ w.intervals, r.IsPlain) {ts : AddressSet}
    (h : toSet w = .ok ts) : ts.Normal ∧ ∀ a, ts.Holds a ↔ a.IsPlain ∧ w.contains a := by
  obtain ⟨ss, hss, rfl⟩ := toSet_eq_ok_iff.mp h
  rw [ranges_eq hw] at hss
  -- The lists of spans are those of the intervals, one for each of them.
  have hmem : ∀ ls, ls ∈ ss ↔ ∃ r ∈ w.intervals, spansOf ⟨r, order⟩ = .ok ls := by
    intro ls
    rw [Answer.mem_iff_of_mapM_eq_ok hss]
    simp only [List.mem_map, exists_exists_and_eq_and]
  have hproper : ∀ s ∈ ss.flatten, s.Proper := by
    intro s hs
    obtain ⟨ls, hls, hsls⟩ := List.mem_flatten.mp hs
    obtain ⟨r, hr, hspans⟩ := (hmem ls).mp hls
    exact (spansOf_spec (hplain r hr) hspans).1 s hsls
  obtain ⟨hnormal, hholds⟩ := AddressSet.ofSpans_spec hproper
  refine ⟨hnormal, fun a => ?_⟩
  have hcontains : w.contains a ↔ ∃ r ∈ w.intervals, r.contains order a := by
    simp only [Interval.contains_iff_spans]
    exact hw.contains_iff a
  rw [hholds, hcontains]
  constructor
  · rintro ⟨s, hs, hsa⟩
    obtain ⟨ls, hls, hsls⟩ := List.mem_flatten.mp hs
    obtain ⟨r, hr, hspans⟩ := (hmem ls).mp hls
    obtain ⟨ha, hra⟩ := ((spansOf_spec (hplain r hr) hspans).2 a).mp ⟨s, hsls, hsa⟩
    exact ⟨ha, r, hr, hra⟩
  · rintro ⟨ha, r, hr, hra⟩
    obtain ⟨ls, hspans⟩ := Answer.exists_mapM_eq_ok_iff.mp ⟨ss, hss⟩ ⟨r, order⟩
      (List.mem_map_of_mem hr)
    obtain ⟨s, hsls, hsa⟩ := ((spansOf_spec (hplain r hr) hspans).2 a).mpr ⟨ha, hra⟩
    exact ⟨s, List.mem_flatten.mpr ⟨ls, (hmem ls).mpr ⟨r, hr, hspans⟩, hsls⟩, hsa⟩

/-- The gaps around intervals between plain addresses are between plain addresses. -/
theorem isPlain_of_mem_gapsFrom {ms : List (Interval Address)} (hms : ∀ m ∈ ms, m.IsPlain)
    {c : Cut Address} (hc : c.IsPlain) {g : Interval Address}
    (hg : g ∈ IntervalSet.gapsFrom order c ms) : g.IsPlain := by
  induction ms generalizing c with
  | nil =>
    obtain ⟨rfl, -⟩ := (IntervalSet.mem_keepNonempty _ g).mp hg
    exact ⟨hc, Cut.isPlain_top⟩
  | cons m ms ih =>
    rw [List.forall_mem_cons] at hms
    rcases List.mem_append.mp hg with hg | hg
    · obtain ⟨rfl, -⟩ := (IntervalSet.mem_keepNonempty _ g).mp hg
      exact ⟨hc, hms.1.lower⟩
    · exact ih hms.2 hms.1.upper hg

/-- The intervals of a view have plain ends if the members of its set do, also on the outside. -/
theorem isPlain_of_mem_intervals (hw : w.Sound order) (hplain : ∀ m ∈ w.base.members, m.IsPlain) :
    ∀ r ∈ w.intervals, r.IsPlain := by
  intro r hr
  unfold View.intervals at hr
  split at hr
  · exact hplain r hr
  · rw [IntervalSet.gaps, hw.order] at hr
    exact isPlain_of_mem_gapsFrom hplain Cut.isPlain_bottom hr

/-- **Which sets of ranges are turned into spans.**  Take any set of ranges between plain addresses,
    with open, closed or no bounds, and look at it from either side.  It is turned into spans
    exactly when each part of each of its intervals in a family holds an address.  A part without an
    address is left out only when it is empty; when its cuts are apart it makes the whole set fail.
    The spans are in order and apart, and they hold exactly the addresses of the set. -/
theorem toSet_isOk_iff_populated (hw : w.Sound order) (hplain : ∀ m ∈ w.base.members, m.IsPlain) :
    ((∃ ts, toSet w = .ok ts) ↔ ∀ r ∈ w.intervals, Populated r) ∧
      ∀ ts, toSet w = .ok ts → ts.Normal ∧ ∀ a, ts.Holds a ↔ a.IsPlain ∧ w.contains a := by
  have hintervals := isPlain_of_mem_intervals hw hplain
  exact ⟨exists_toSet_iff hw hintervals, fun _ h => toSet_spec hw hintervals h⟩

/-- The outside of some closed ranges of 32-bit addresses. -/
def sampleOutside (bounds : List (BitVec 32 × BitVec 32)) : View Address :=
  ⟨⟨order, bounds.map fun b => .closed (.v4 b.1) (.v4 b.2)⟩, .outside⟩

/-- No zone occurs in the sample sets. -/
theorem isPlain_sampleOutside (bounds : List (BitVec 32 × BitVec 32)) :
    ∀ m ∈ (sampleOutside bounds).base.members, m.IsPlain := by
  intro m hm
  obtain ⟨b, -, rfl⟩ := List.mem_map.mp hm
  exact ⟨Cut.isPlain_below (isPlain_v4 _), Cut.isPlain_above (isPlain_v4 _)⟩

/-- All addresses but 10.0.0.0 to 10.0.0.255, in both families. -/
def sampleRest : View Address :=
  sampleOutside [(0x0a000000, 0x0a0000ff)]

/-- The outside of a block in the first family becomes three spans: one on either side of the block,
    and all of the other family. -/
theorem sampleRest_populated :
    toSet sampleRest =
        .ok [⟨firstV4, .v4 0x09ffffff⟩, ⟨.v4 0x0a000100, lastV4⟩, ⟨firstV6, lastV6⟩] ∧
      (∀ r ∈ sampleRest.intervals, Populated r) ∧
      ∀ ts, toSet sampleRest = .ok ts →
        ts.Normal ∧ ∀ a, ts.Holds a ↔ a.IsPlain ∧ sampleRest.contains a := by
  have htoSet : toSet sampleRest =
      .ok [⟨firstV4, .v4 0x09ffffff⟩, ⟨.v4 0x0a000100, lastV4⟩, ⟨firstV6, lastV6⟩] := rfl
  obtain ⟨hiff, hspec⟩ := toSet_isOk_iff_populated (w := sampleRest) ⟨rfl, by decide, by decide⟩
    (isPlain_sampleOutside _)
  exact ⟨htoSet, hiff.mp ⟨_, htoSet⟩, hspec⟩

/-- All addresses after 10.0.0.0.  The outside of a set that starts at the first address has an
    interval before it. -/
def sampleAfter : View Address :=
  sampleOutside [(0, 0x0a000000)]

/-- All addresses but 10.0.0.1 and 10.0.0.2.  The outside of two addresses in a row has an interval
    between them. -/
def sampleAround : View Address :=
  sampleOutside [(0x0a000001, 0x0a000001), (0x0a000002, 0x0a000002)]

/-- Sets with addresses that are not turned into spans, for an interval of theirs that holds
    none. -/
theorem sampleAfter_refused :
    (sampleAfter.Sound order ∧ (∀ m ∈ sampleAfter.base.members, m.IsPlain) ∧
      sampleAfter.contains (.v4 0x0a000001) ∧
      toSet sampleAfter = .error (.noAddress ⟨⟨.bottom, .below firstV4⟩, order⟩)) ∧
    (sampleAround.Sound order ∧ (∀ m ∈ sampleAround.base.members, m.IsPlain) ∧
      sampleAround.contains (.v4 0x0a000003) ∧
      toSet sampleAround = .error (.manyFamilies
        ⟨⟨.above (.v4 0x0a000001), .below (.v4 0x0a000002)⟩, order⟩)) :=
  ⟨⟨⟨rfl, by decide, by decide⟩, isPlain_sampleOutside _, by decide, rfl⟩,
    ⟨rfl, by decide, by decide⟩, isPlain_sampleOutside _, by decide, rfl⟩

/-! ### The way back -/

/-- A range of addresses in half-open form with a lower bound, whose endpoints are plain. -/
structure Regular (r : Range Address) : Prop where
  grounded : Recipe.Grounded order IsPlain r
  canonical : r.canonical domain = r

/-- A range with a lower bound beside a plain address starts at a plain address in half-open form,
    unless it starts after the last one. -/
theorem exists_below_of_grounded {r : Range Address} (hr : Recipe.Grounded order IsPlain r)
    (hne : r.lower.canonical domain ≠ .top) :
    ∃ v : Address, v.IsPlain ∧ r.lower.canonical domain = .below v := by
  rcases Cut.canonical_cases lawfulOn_domain hr.lower with h | h | h
  · have hbounded := hr.isBounded
    rw [h] at hbounded
    cases hbounded
  · exact absurd h hne
  · exact h

namespace Regular

variable {r : Range Address}

/-- The ends of a regular range are plain. -/
theorem isPlain (hr : Regular r) : r.toInterval.IsPlain :=
  ⟨hr.grounded.lower, hr.grounded.upper⟩

/-- A regular range starts below an address. -/
theorem exists_lower (hr : Regular r) : ∃ v : Address, v.IsPlain ∧ r.lower = .below v := by
  have hcanonical : r.lower.canonical domain = r.lower := congrArg (fun r => r.lower) hr.canonical
  rw [← hcanonical]
  refine exists_below_of_grounded hr.grounded fun htop => ?_
  have hbounded := hr.grounded.isBounded
  rw [← hcanonical, htop] at hbounded
  cases hbounded

/-- What a regular range covers changes at addresses only. -/
theorem edgedBy (hr : Regular r) : Cut.EdgedBy order IsPlain (r.toInterval.region order) := by
  have hedged := hr.grounded.edgedBy lawfulOn_domain
  rwa [hr.canonical] at hedged

/-- Each part of a range in half-open form starts at an address, so it holds one. -/
theorem populated (hr : Regular r) : Populated r.toInterval := by
  intro p hp
  have hne := (inFamily_of_mem_parts hr.isPlain hp).nonempty
  rcases lower_of_mem_parts hp with hlower | hlower
  · obtain ⟨v, hv, hstart⟩ := hr.exists_lower
    exact ⟨v, hv, Interval.contains_of_lower_eq (hlower.trans hstart) hne⟩
  · exact ⟨firstV6, isPlain_firstV6, Interval.contains_of_lower_eq hlower hne⟩

/-- The half-open form of a range with a lower bound between plain addresses, unless it is empty. -/
theorem of_grounded (hr : Recipe.Grounded order IsPlain r)
    (hne : Cut.lt order (r.canonical domain).lower (r.canonical domain).upper) :
    Regular (r.canonical domain) := by
  obtain ⟨v, hv, hlower⟩ := exists_below_of_grounded hr (Cut.ne_top_of_lt hne)
  -- The half-open form ends below an address, or without an end where no address follows.
  have hupper : (r.upper.canonical domain).IsPlain := by
    rcases Cut.canonical_cases lawfulOn_domain hr.upper with h | h | ⟨w, hw, h⟩
    · exact absurd (congrArg (Cut.canonical domain) h) (Cut.ne_bottom_of_lt hne)
    · rw [h]
      exact Cut.isPlain_top
    · rw [h]
      exact Cut.isPlain_below hw
  refine ⟨⟨hr.order, ?_, ?_, hupper⟩, ?_⟩
  · show (r.lower.canonical domain).isBounded
    rw [hlower]
    rfl
  · show (r.lower.canonical domain).IsPlain
    rw [hlower]
    exact Cut.isPlain_below hv
  · show (⟨((r.toInterval.canonical domain).canonical domain), r.cmp⟩ : Range Address) = _
    rw [Interval.canonical_eq_self (Interval.halfOpen_canonical _)]
    rfl

end Regular

/-- Only valid spans become ranges, and these are read in the order of the addresses. -/
theorem ofSpan_eq_ok {s : AddressSpan} {r : Range Address} (h : ofSpan s = .ok r) :
    s.isValid ∧ r.cmp = order := by
  unfold ofSpan at h
  split at h
  · next hvalid =>
    obtain rfl := Except.ok.inj h
    exact ⟨hvalid, rfl⟩
  · cases h

/-- The range of a span is regular, and it holds the addresses of the span. -/
theorem ofSpan_spec {s : AddressSpan} (hs : s.Proper) :
    ∃ r, ofSpan s = .ok r ∧ Regular r ∧ Cut.lt order r.lower r.upper ∧
      ∀ a, a.IsPlain → (r.contains a ↔ s.contains a) := by
  have hclosed : (Interval.closed s.first s.last).IsPlain :=
    ⟨Cut.isPlain_below hs.first, Cut.isPlain_above hs.last⟩
  -- The half-open form has the plain addresses that the closed one has.
  have hcontains : ∀ a, a.IsPlain →
      (((Interval.closed s.first s.last).canonical domain).contains order a ↔ s.contains a) := by
    intro a ha
    rw [Interval.contains_canonical_on lawfulOn_domain hclosed.lower hclosed.upper ha,
      hclosed.contains_iff ha, hs.contains_iff]
    show s.first.place ≤ a.place ∧ a.place < s.last.place + 1 ↔ _
    rw [Nat.lt_succ_iff]
    exact (and_iff_right ha).symm
  -- It is not empty, since it has the first address of the span.
  have hne : Cut.lt order ((Interval.closed s.first s.last).canonical domain).lower
      ((Interval.closed s.first s.last).canonical domain).upper := by
    obtain ⟨hlower, hupper⟩ := (Interval.contains_iff_spans _ _).mp
      ((hcontains s.first hs.first).mpr hs.contains_first)
    grind
  have hgrounded : Recipe.Grounded order IsPlain ⟨.closed s.first s.last, order⟩ :=
    ⟨rfl, rfl, hclosed.lower, hclosed.upper⟩
  exact ⟨_, if_pos hs.isValid, Regular.of_grounded hgrounded hne, hne, hcontains⟩

/-- A set whose ranges are regular changes only at plain addresses. -/
theorem edgedBy_of_regular (hw : w.Sound order) (hregular : ∀ r ∈ w.ranges, Regular r) :
    Cut.EdgedBy order IsPlain (w.region order) := by
  rw [ranges_eq hw, List.forall_mem_map] at hregular
  exact IntervalSet.edgedBy_region fun m hm => (hregular m hm).edgedBy

/-- A set that changes only at plain addresses has regular ranges. -/
theorem regular_of_edgedBy (hw : w.Sound order)
    (hedged : Cut.EdgedBy order IsPlain (w.region order)) : ∀ r ∈ w.ranges, Regular r := by
  rw [ranges_eq hw, List.forall_mem_map]
  intro m hm
  obtain ⟨v, hv, hlower⟩ := hw.intervals.lower_of_edgedBy hedged hm
  have hstart : m.lower = .below v := Cut.eq_of_same hlower
  -- An interval ends where the region ends: below an address, or not at all.
  have hupper : m.upper.IsPlain ∧ m.upper.HalfOpen := by
    rcases hw.intervals.upper_of_edgedBy hedged hm with htop | ⟨u, hu, hsame⟩
    · rw [htop]
      exact ⟨Cut.isPlain_top, trivial⟩
    · rw [Cut.eq_of_same hsame]
      exact ⟨Cut.isPlain_below hu, trivial⟩
  have hopen : m.HalfOpen := ⟨hstart ▸ trivial, hupper.2⟩
  refine ⟨⟨rfl, ?_, ?_, hupper.1⟩, ?_⟩
  · show m.lower.isBounded
    rw [hstart]
    rfl
  · show m.lower.IsPlain
    rw [hstart]
    exact Cut.isPlain_below hv
  · show (⟨m.canonical domain, order⟩ : Range Address) = _
    rw [Interval.canonical_eq_self hopen]

/-- The set of some spans holds the addresses of the spans, and changes only at plain addresses. -/
theorem setOfSpans_spec {ss : List AddressSpan} (hss : ∀ s ∈ ss, s.Proper) :
    ∃ s, setOfSpans ss = .ok s ∧ View.Sound order ⟨s, .inside⟩ ∧
      Cut.EdgedBy order IsPlain (View.region order ⟨s, .inside⟩) ∧
      ∀ a, a.IsPlain → (View.contains ⟨s, .inside⟩ a ↔ ∃ span ∈ ss, span.contains a) := by
  obtain ⟨rs, hrs⟩ : ∃ rs, ss.mapM ofSpan = .ok rs := by
    refine Answer.exists_mapM_eq_ok_iff.mpr fun s hs => ?_
    obtain ⟨r, hr, -⟩ := ofSpan_spec (hss s hs)
    exact ⟨r, hr⟩
  have hmem := Answer.mem_iff_of_mapM_eq_ok hrs
  have hspec : ∀ s ∈ ss, ∀ r, ofSpan s = .ok r → Regular r ∧ Cut.lt order r.lower r.upper ∧
      ∀ a, a.IsPlain → (r.contains a ↔ s.contains a) := by
    intro s hs r hofSpan
    obtain ⟨r', hr', hregular⟩ := ofSpan_spec (hss s hs)
    obtain rfl := Except.ok.inj (hofSpan.symm.trans hr')
    exact hregular
  have hregular : ∀ r ∈ rs, Regular r ∧ Cut.lt order r.lower r.upper := by
    intro r hr
    obtain ⟨s, hs, hofSpan⟩ := (hmem r).mp hr
    exact ⟨(hspec s hs r hofSpan).1, (hspec s hs r hofSpan).2.1⟩
  have hne : ∀ i ∈ rs.map Range.toInterval, Cut.lt order i.lower i.upper :=
    List.forall_mem_map.mpr fun r hr => (hregular r hr).2
  obtain ⟨hcmp, hnormal, hcovers⟩ :=
    IntervalSet.foldl_insert_spec hne (s := .empty order) rfl IntervalSet.normal_nil
  rw [List.foldl_map] at hcmp hnormal hcovers
  have hsound : View.Sound order
      ⟨rs.foldl (fun s r => s.insert r.toInterval) (.empty order), .inside⟩ :=
    ⟨hcmp, hnormal⟩
  -- What is inserted one after another is covered, and nothing else.
  have hregion : View.region order ⟨rs.foldl (fun s r => s.insert r.toInterval) (.empty order),
      .inside⟩ = IntervalSet.region order (rs.map Range.toInterval) := by
    refine IntervalSet.region_eq_iff.mpr fun c => (hcovers c).trans ?_
    exact or_iff_right (IntervalSet.not_covers_nil c)
  refine ⟨_, ?_, hsound, ?_, fun a ha => ?_⟩
  · rw [setOfSpans, hrs]
    rfl
  · rw [hregion]
    exact IntervalSet.edgedBy_region (List.forall_mem_map.mpr fun r hr => (hregular r hr).1.edgedBy)
  · rw [hsound.contains_iff, hregion, IntervalSet.mem_region]
    constructor
    · rintro ⟨i, hi, hspan⟩
      obtain ⟨r, hr, rfl⟩ := List.mem_map.mp hi
      obtain ⟨s, hs, hofSpan⟩ := (hmem r).mp hr
      obtain ⟨hreg, -, hcontains⟩ := hspec s hs r hofSpan
      exact ⟨s, hs, (hcontains a ha).mp
        ((Range.contains_iff_spans hreg.grounded.order a).mpr hspan)⟩
    · rintro ⟨s, hs, hsa⟩
      obtain ⟨r, hofSpan⟩ := Answer.exists_mapM_eq_ok_iff.mp ⟨rs, hrs⟩ s hs
      obtain ⟨hreg, -, hcontains⟩ := hspec s hs r hofSpan
      exact ⟨r.toInterval, List.mem_map_of_mem ((hmem r).mpr ⟨s, hs, hofSpan⟩),
        (Range.contains_iff_spans hreg.grounded.order a).mp ((hcontains a ha).mpr hsa)⟩

/-- A set whose ranges are regular is turned into spans. -/
theorem exists_toSet_of_regular (hw : w.Sound order) (hregular : ∀ r ∈ w.ranges, Regular r) :
    ∃ ts, toSet w = .ok ts ∧ ts.Normal ∧ ∀ a, ts.Holds a ↔ a.IsPlain ∧ w.contains a := by
  rw [ranges_eq hw, List.forall_mem_map] at hregular
  have hplain : ∀ r ∈ w.intervals, r.IsPlain := fun r hr => (hregular r hr).isPlain
  obtain ⟨ts, hts⟩ := (exists_toSet_iff hw hplain).mpr fun r hr => (hregular r hr).populated
  exact ⟨ts, hts, toSet_spec hw hplain hts⟩

/-- **Sets of addresses survive the way to spans and back.**  Take any set whose ranges have a lower
    bound and plain endpoints and are in half-open form, also ranges that go from one family into
    the other or on without end.  It is turned into spans, in order and apart, that hold exactly the
    addresses of the set; and the set that is made from these spans is equal to it, whichever of the
    two one asks. -/
theorem ofSet_toSet_equal (hw : w.Sound order) (hregular : ∀ r ∈ w.ranges, Regular r) :
    ∃ ts, toSet w = .ok ts ∧ ts.Normal ∧ (∀ a, ts.Holds a ↔ a.IsPlain ∧ w.contains a) ∧
      ∃ s, ofSet (some ts) = .ok s ∧ View.equal ⟨s, .inside⟩ (some w) ∧
        w.equal (some ⟨s, .inside⟩) := by
  obtain ⟨ts, hts, hnormal, hholds⟩ := exists_toSet_of_regular hw hregular
  obtain ⟨s, hs, hsound, hedged, hcontains⟩ := setOfSpans_spec hnormal.proper
  have hsame : ∀ a, a.IsPlain → View.contains ⟨s, .inside⟩ a = w.contains a := by
    intro a ha
    rw [Bool.eq_iff_iff, hcontains a ha]
    exact (hholds a).trans (and_iff_right ha)
  have hedged' := edgedBy_of_regular hw hregular
  exact ⟨ts, hts, hnormal, hholds, s, hs,
    (View.equal_iff_of_edgedBy hsound hw hedged hedged').mpr hsame,
    (View.equal_iff_of_edgedBy hw hsound hedged' hedged).mpr fun a ha => (hsame a ha).symm⟩

/-- A range that goes from one family into the other, and one without end. -/
def sampleCrossing : View Address :=
  ⟨⟨order, [.closedOpen (.v4 0xfffffffe) (.v6 2 ""), ⟨.below (.v6 0x10 ""), .top⟩]⟩, .inside⟩

/-- A range across the border of the families is cut in two there, and joined again on the way
    back. -/
theorem sampleCrossing_equal :
    ∃ ts, toSet sampleCrossing = .ok ts ∧
      ts = [⟨.v4 0xfffffffe, lastV4⟩, ⟨firstV6, .v6 1 ""⟩, ⟨.v6 0x10 "", lastV6⟩] ∧ ts.Normal ∧
      (∀ a, ts.Holds a ↔ a.IsPlain ∧ sampleCrossing.contains a) ∧
      ∃ s, ofSet (some ts) = .ok s ∧ View.equal ⟨s, .inside⟩ (some sampleCrossing) ∧
        sampleCrossing.equal (some ⟨s, .inside⟩) := by
  have hregular : ∀ r ∈ sampleCrossing.ranges, Regular r := by
    refine List.forall_mem_cons.mpr ⟨?_, List.forall_mem_singleton.mpr ?_⟩
    · exact ⟨⟨rfl, rfl, Cut.isPlain_below (isPlain_v4 _), Cut.isPlain_below (isPlain_v6 _)⟩, rfl⟩
    · exact ⟨⟨rfl, rfl, Cut.isPlain_below (isPlain_v6 _), Cut.isPlain_top⟩, rfl⟩
  obtain ⟨ts, hts, hrest⟩ := ofSet_toSet_equal (w := sampleCrossing)
    ⟨rfl, by decide, by decide⟩ hregular
  have heq : toSet sampleCrossing =
      .ok [⟨.v4 0xfffffffe, lastV4⟩, ⟨firstV6, .v6 1 ""⟩, ⟨.v6 0x10 "", lastV6⟩] := rfl
  exact ⟨ts, hts, Except.ok.inj (hts.symm.trans heq), hrest⟩

end Allotment.Address
