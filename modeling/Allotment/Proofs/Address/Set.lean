import Allotment.Address.Span
import Allotment.Proofs.Address.Place
import Allotment.Proofs.Answer

namespace Allotment

/-!
# Spans, networks and sets of addresses

A span has a first and a last address of one family, a network has the addresses that share its
leading bits, and a set of addresses is a list of spans.  What each of them holds is a matter of
places and numbers:

* `AddressSpan.Proper`, `AddressSpan.Proper.contains_iff` — a span holds the addresses between two
  places;
* `Network.Holds`, `Network.Proper.span_spec` — the span of a network holds the addresses of the
  network;
* `AddressSpan.proper_of_parse`, `Network.proper_of_parse` — what is read from a text is proper;
* `AddressSet.Normal`, `AddressSet.insert_spec` — putting a span into a set of addresses keeps the
  spans in order and apart, also where it joins several of them.
-/

/-! ### Spans -/

namespace Address

/-- Without its zone a valid address is plain. -/
theorem isPlain_withoutZone {a : Address} (h : a.withoutZone.isValid) : a.withoutZone.IsPlain := by
  refine ⟨h, ?_⟩
  cases a <;> rfl

/-- A plain address has no zone to be taken away. -/
theorem IsPlain.withoutZone_eq {a : Address} (ha : a.IsPlain) : a.withoutZone = a := by
  rcases (isPlain_iff a).mp ha with ⟨x, rfl⟩ | ⟨x, rfl⟩ <;> rfl

/-- An address that was read is set. -/
theorem isValid_of_parse {t : Text} {a : Address} (h : parse t = .ok a) : a.isValid := by
  unfold parse at h
  rw [Answer.mapError_eq_ok] at h
  split at h
  · obtain ⟨os, -, h⟩ := Answer.bind_eq_ok.mp h
    cases h
    rfl
  · unfold parseV6 at h
    simp only at h
    split at h
    -- Both forms of a 128-bit address, with and without a gap, end in an address that is put
    -- together.
    all_goals
      obtain ⟨parts, -, h⟩ := Answer.bind_eq_ok.mp h
      obtain ⟨gs, -, h⟩ := Answer.bind_eq_ok.mp h
      cases h
      rfl
  · cases h
  · cases h

end Address

namespace AddressSpan

/-- A valid span of plain addresses. -/
structure Proper (s : AddressSpan) : Prop where
  first : s.first.IsPlain
  last : s.last.IsPlain
  isValid : s.isValid

/-- The span between plain addresses goes from the one to the other: they have no zones to drop. -/
theorem between_eq {a b : Address} (ha : a.IsPlain) (hb : b.IsPlain) : between a b = ⟨a, b⟩ := by
  rw [between, ha.withoutZone_eq, hb.withoutZone_eq]

/-- The ends of a proper span are of one family. -/
theorem Proper.width_eq {s : AddressSpan} (hs : s.Proper) : s.first.width = s.last.width := by
  have hvalid := hs.isValid
  simp only [AddressSpan.isValid, Bool.and_eq_true, beq_iff_eq] at hvalid
  exact hvalid.1.2

/-- A proper span does not end before it starts. -/
theorem Proper.place_le {s : AddressSpan} (hs : s.Proper) : s.first.place ≤ s.last.place := by
  have hvalid := hs.isValid
  simp only [AddressSpan.isValid, Bool.and_eq_true] at hvalid
  exact (hs.first.le_iff hs.last).mp hvalid.2

/-- Plain ends of one family that do not stand in the wrong order make a proper span. -/
theorem proper_of_place_le {s : AddressSpan} (hfirst : s.first.IsPlain) (hlast : s.last.IsPlain)
    (hwidth : s.first.width = s.last.width) (hle : s.first.place ≤ s.last.place) : s.Proper := by
  refine ⟨hfirst, hlast, ?_⟩
  simp only [AddressSpan.isValid, Bool.and_eq_true, beq_iff_eq]
  exact ⟨⟨⟨hfirst.1, hlast.1⟩, hwidth⟩, (hfirst.le_iff hlast).mpr hle⟩

/-- A valid span between two addresses is proper, since their zones are dropped. -/
theorem proper_between {a b : Address} (h : (between a b).isValid) : (between a b).Proper := by
  have hvalid := h
  simp only [AddressSpan.isValid, Bool.and_eq_true] at hvalid
  exact ⟨Address.isPlain_withoutZone hvalid.1.1.1, Address.isPlain_withoutZone hvalid.1.1.2, h⟩

/-- No span holds an address with a zone, and none starts at or before an address that is not
    set. -/
theorem isPlain_of_contains {s : AddressSpan} {a : Address} (h : s.contains a) : a.IsPlain := by
  simp only [contains, AddressSpan.isValid, Bool.and_eq_true, String.isEmpty_iff] at h
  obtain ⟨⟨⟨⟨⟨⟨hvalid, -⟩, -⟩, -⟩, hzone⟩, hfirst⟩, -⟩ := h
  refine ⟨?_, hzone⟩
  cases a with
  | unset =>
    revert hvalid hfirst
    cases s.first <;> nofun
  | v4 x => rfl
  | v6 x z => rfl

/-- A span holds the plain addresses from the place of its first one to that of its last one. -/
theorem Proper.contains_iff {s : AddressSpan} (hs : s.Proper) (a : Address) :
    s.contains a ↔ a.IsPlain ∧ s.first.place ≤ a.place ∧ a.place ≤ s.last.place := by
  have hplain : s.contains a → a.IsPlain := isPlain_of_contains
  simp only [contains, hs.isValid, Bool.true_and, Bool.and_eq_true, String.isEmpty_iff] at hplain ⊢
  constructor
  · intro h
    have ha := hplain h
    exact ⟨ha, (hs.first.le_iff ha).mp h.1.2, (ha.le_iff hs.last).mp h.2⟩
  · rintro ⟨ha, hfirst, hlast⟩
    exact ⟨⟨ha.2, (hs.first.le_iff ha).mpr hfirst⟩, (ha.le_iff hs.last).mpr hlast⟩

/-- A proper span has the address that it starts with, so it is not empty. -/
theorem Proper.contains_first {s : AddressSpan} (hs : s.Proper) : s.contains s.first :=
  (hs.contains_iff s.first).mpr ⟨hs.first, Nat.le_refl _, hs.place_le⟩

/-- A span that was read is proper. -/
theorem proper_of_parse {t : Text} {s : AddressSpan} (h : parse t = .ok s) : s.Proper := by
  unfold parse at h
  split at h
  · cases h
  · obtain ⟨a, -, h⟩ := Answer.bind_eq_ok.mp h
    obtain ⟨b, -, h⟩ := Answer.bind_eq_ok.mp h
    simp only at h
    split at h
    · next hvalid =>
      cases h
      exact proper_between hvalid
    · cases h

end AddressSpan

/-! ### Networks -/

namespace Address.IsPlain

variable {a b : Address}

/-- The number of an address fits in the bits of its family. -/
theorem number_lt (ha : a.IsPlain) : a.number < 2 ^ a.width := by
  rcases (isPlain_iff a).mp ha with ⟨x, rfl⟩ | ⟨x, rfl⟩
  · exact x.isLt
  · exact x.isLt

/-- In one family, places are in the order of the numbers. -/
theorem place_le_iff (ha : a.IsPlain) (hb : b.IsPlain) (hwidth : a.width = b.width) :
    a.place ≤ b.place ↔ a.number ≤ b.number := by
  rcases (isPlain_iff a).mp ha with ⟨x, rfl⟩ | ⟨x, rfl⟩
  · rcases (isPlain_iff b).mp hb with ⟨y, rfl⟩ | ⟨y, rfl⟩
    · exact Iff.rfl
    · cases hwidth
  · rcases (isPlain_iff b).mp hb with ⟨y, rfl⟩ | ⟨y, rfl⟩
    · cases hwidth
    · simp only [place_v6, number, Nat.add_le_add_iff_left]

/-- Addresses between two of one family belong to it. -/
theorem width_eq_of_between {c : Address} (ha : a.IsPlain) (hb : b.IsPlain) (hc : c.IsPlain)
    (hwidth : a.width = b.width) (hac : a.place ≤ c.place) (hcb : c.place ≤ b.place) :
    c.width = a.width := by
  rw [ha.width_eq_iff hb] at hwidth
  rw [hc.width_eq_iff ha]
  omega

/-- The address with a certain number in a family. -/
theorem sameFamily (ha : a.IsPlain) {n : Nat} (hn : n < 2 ^ a.width) :
    (Network.sameFamily a n).IsPlain ∧ (Network.sameFamily a n).width = a.width ∧
      (Network.sameFamily a n).number = n := by
  rcases (isPlain_iff a).mp ha with ⟨x, rfl⟩ | ⟨x, rfl⟩
  · refine ⟨isPlain_v4 _, rfl, ?_⟩
    show (BitVec.ofNat 32 n).toNat = n
    rw [BitVec.toNat_ofNat]
    exact Nat.mod_eq_of_lt hn
  · refine ⟨isPlain_v6 _, rfl, ?_⟩
    show (BitVec.ofNat 128 n).toNat = n
    rw [BitVec.toNat_ofNat]
    exact Nat.mod_eq_of_lt hn

end Address.IsPlain

namespace Network

/-- A network of a plain address with no more bits than the address has. -/
structure Proper (n : Network) : Prop where
  address : n.address.IsPlain
  bits_le : n.bits ≤ n.address.width

/-- An address of the family of a network that shares its leading bits: without the others, the
    numbers are equal. -/
def Holds (n : Network) (a : Address) : Prop :=
  a.IsPlain ∧ a.width = n.address.width ∧ a.number / n.size = n.address.number / n.size

/-- The size of a network, as a power of two. -/
theorem size_eq (n : Network) : n.size = 2 ^ (n.address.width - n.bits) := by
  rw [size, Dyadic.size, Nat.one_shiftLeft]

/-- The last number with certain leading bits is still a number of the family. -/
theorem Proper.last_lt {n : Network} (hn : n.Proper) :
    n.address.number - n.address.number % n.size + n.size ≤ 2 ^ n.address.width := by
  have hsplit : 2 ^ n.address.width = n.size * 2 ^ n.bits := by
    rw [size_eq, ← Nat.pow_add]
    exact congrArg _ (Nat.sub_add_cancel hn.bits_le).symm
  -- The bits of the network number the blocks of its size in the family.
  have hlt : n.address.number / n.size < 2 ^ n.bits :=
    Nat.div_lt_of_lt_mul (hsplit ▸ hn.address.number_lt)
  have hmul : n.size * (n.address.number / n.size) =
      n.address.number - n.address.number % n.size := by
    have hdiv := Nat.div_add_mod n.address.number n.size
    omega
  calc n.address.number - n.address.number % n.size + n.size
      = n.size * (n.address.number / n.size + 1) := by rw [Nat.mul_succ, hmul]
    _ ≤ n.size * 2 ^ n.bits := Nat.mul_le_mul_left _ hlt
    _ = 2 ^ n.address.width := hsplit.symm

/-- The numbers with the leading bits of `k` are the `size` numbers from the one on whose other bits
    are zero. -/
theorem div_eq_iff_between {k m size : Nat} (hsize : 0 < size) :
    m / size = k / size ↔ k - k % size ≤ m ∧ m ≤ k - k % size + size - 1 := by
  have hstart : k - k % size = k / size * size := by
    have hdiv := Nat.div_add_mod k size
    rw [Nat.mul_comm] at hdiv
    omega
  rw [hstart, Nat.div_eq_iff hsize]

/-- The span of a network is proper, and it holds the addresses of the network. -/
theorem Proper.span_spec {n : Network} (hn : n.Proper) :
    n.span.Proper ∧ ∀ a, n.span.contains a ↔ n.Holds a := by
  have hpos : 0 < n.size := by
    rw [size_eq]
    exact Nat.two_pow_pos _
  have hlast := hn.last_lt
  obtain ⟨hf, hfwidth, hfnumber⟩ : n.span.first.IsPlain ∧ n.span.first.width = n.address.width ∧
      n.span.first.number = n.address.number - n.address.number % n.size :=
    hn.address.sameFamily (by omega)
  obtain ⟨hl, hlwidth, hlnumber⟩ : n.span.last.IsPlain ∧ n.span.last.width = n.address.width ∧
      n.span.last.number = n.address.number - n.address.number % n.size + n.size - 1 :=
    hn.address.sameFamily (by omega)
  have hwidth : n.span.first.width = n.span.last.width := hfwidth.trans hlwidth.symm
  -- Both ends are of the family of the address, and the last one is not before the first.
  have hproper : n.span.Proper := by
    refine AddressSpan.proper_of_place_le hf hl hwidth ((hf.place_le_iff hl hwidth).mpr ?_)
    rw [hfnumber, hlnumber]
    omega
  refine ⟨hproper, fun a => ?_⟩
  rw [hproper.contains_iff, Holds, div_eq_iff_between hpos]
  refine and_congr_right fun ha => ?_
  constructor
  · -- An address between the ends is of their family, where places and numbers differ by a
    -- constant.
    rintro ⟨hfa, hal⟩
    have hwidth' := hf.width_eq_of_between hl ha hwidth hfa hal
    rw [hf.place_le_iff ha hwidth'.symm, hfnumber] at hfa
    rw [ha.place_le_iff hl (hwidth'.trans hwidth), hlnumber] at hal
    exact ⟨hwidth'.trans hfwidth, hfa, hal⟩
  · rintro ⟨hwidth', hfa, hal⟩
    rw [hf.place_le_iff ha (hfwidth.trans hwidth'.symm), hfnumber,
      ha.place_le_iff hl (hwidth'.trans hlwidth.symm), hlnumber]
    exact ⟨hfa, hal⟩

/-- A network that was read is proper. -/
theorem proper_of_parse {t : Text} {n : Network} (h : parse t = .ok n) : n.Proper := by
  unfold parse at h
  rw [Answer.mapError_eq_ok] at h
  split at h
  · cases h
  · obtain ⟨a, ha, h⟩ := Answer.bind_eq_ok.mp h
    have hvalid := Address.isValid_of_parse (Answer.mapError_eq_ok.mp ha)
    split at h
    · cases h
    -- What is left has been read without a zone, and with no more bits than its family has.
    next hzone =>
      obtain ⟨bits, -, h⟩ := Answer.bind_eq_ok.mp h
      split at h
      · cases h
      next hbits =>
        cases h
        exact ⟨⟨hvalid, by simpa using hzone⟩, Nat.le_of_not_lt hbits⟩

end Network

/-! ### Sets of addresses -/

namespace AddressSet

/-- An address that a span of a set of addresses holds. -/
def Holds (ts : AddressSet) (a : Address) : Prop :=
  ∃ s ∈ ts, s.contains a

/-- Proper spans in increasing order, of which no two touch. -/
structure Normal (ts : AddressSet) : Prop where
  proper : ∀ s ∈ ts, s.Proper
  apart : ts.Pairwise fun s t => isApart s t

variable {s t u : AddressSpan} {ts : AddressSet}

theorem normal_nil : Normal [] :=
  ⟨by simp, List.Pairwise.nil⟩

/-- A set holds what its first span contains and what the others hold. -/
theorem holds_cons (a : Address) : Holds (s :: ts) a ↔ s.contains a ∨ Holds ts a := by
  simp [Holds]

/-- Spans are apart when one ends before the other starts, and not just before it in the same
    family. -/
theorem isApart_iff (hs : s.Proper) (ht : t.Proper) : isApart s t ↔
    s.last.place < t.first.place ∧
      ¬ (s.last.width = t.first.width ∧ t.first.place = s.last.place + 1) := by
  rw [isApart, Bool.and_eq_true, hs.last.lt_iff ht.first, bne_iff_ne, ne_eq,
    hs.last.sibling?_eq_some_iff ht.first]

/-- What is apart from a later span is apart from all spans after that one. -/
theorem isApart_trans (hs : s.Proper) (ht : t.Proper) (hu : u.Proper) (hst : isApart s t)
    (htu : isApart t u) : isApart s u := by
  rw [isApart_iff hs ht] at hst
  rw [isApart_iff ht hu] at htu
  rw [isApart_iff hs hu]
  have hle := ht.place_le
  omega

/-- What is apart from two spans is apart from their hull. -/
theorem isApart_hull (hs : isApart u s) (ht : isApart u t) : isApart u (hull s t) := by
  have hfirst : (hull s t).first = t.first ∨ (hull s t).first = s.first := by
    simp only [hull]
    split
    · exact Or.inl rfl
    · exact Or.inr rfl
  unfold isApart at hs ht ⊢
  rcases hfirst with hfirst | hfirst <;> rw [hfirst] <;> assumption

/-- Two spans that are not apart belong to one family and leave no address between them, so their
    hull holds what one of them does. -/
theorem hull_spec (hs : s.Proper) (ht : t.Proper) (hst : ¬ isApart s t) (hts : ¬ isApart t s) :
    (hull s t).Proper ∧ ∀ a, (hull s t).contains a ↔ s.contains a ∨ t.contains a := by
  have hsle := hs.place_le
  have htle := ht.place_le
  rw [isApart_iff hs ht] at hst
  rw [isApart_iff ht hs] at hts
  have hswidth := (hs.first.width_eq_iff hs.last).mp hs.width_eq
  have htwidth := (ht.first.width_eq_iff ht.last).mp ht.width_eq
  rw [hs.last.width_eq_iff ht.first] at hst
  rw [ht.last.width_eq_iff hs.first] at hts
  -- The hull starts where the first of the two does and ends where the last of them does.
  obtain ⟨hfirst, hfirstPlace⟩ : (hull s t).first.IsPlain ∧
      (hull s t).first.place = min s.first.place t.first.place := by
    simp only [hull]
    split
    · next hlt =>
      rw [ht.first.lt_iff hs.first] at hlt
      exact ⟨ht.first, by omega⟩
    · next hlt =>
      rw [ht.first.lt_iff hs.first] at hlt
      exact ⟨hs.first, by omega⟩
  obtain ⟨hlast, hlastPlace⟩ : (hull s t).last.IsPlain ∧
      (hull s t).last.place = max s.last.place t.last.place := by
    simp only [hull]
    split
    · next hlt =>
      rw [hs.last.lt_iff ht.last] at hlt
      exact ⟨ht.last, by omega⟩
    · next hlt =>
      rw [hs.last.lt_iff ht.last] at hlt
      exact ⟨hs.last, by omega⟩
  -- Spans that are not apart are of one family, for two families never meet in one.
  have hproper : (hull s t).Proper := by
    refine AddressSpan.proper_of_place_le hfirst hlast ?_ (by omega)
    rw [hfirst.width_eq_iff hlast]
    omega
  refine ⟨hproper, fun a => ?_⟩
  rw [hproper.contains_iff, hs.contains_iff, ht.contains_iff, ← and_or_left]
  refine and_congr_right fun _ => ?_
  omega

/-- What is apart from a span and from all spans of a set stays apart when the span is put in. -/
theorem isApart_insert (hs : isApart u s) (hts : ∀ t ∈ ts, isApart u t) :
    ∀ t ∈ insert s ts, isApart u t := by
  induction ts generalizing s with
  | nil => simpa [insert] using hs
  | cons t ts ih =>
    rw [List.forall_mem_cons] at hts
    unfold insert
    split
    · exact List.forall_mem_cons.mpr ⟨hts.1, ih hs hts.2⟩
    split
    · exact List.forall_mem_cons.mpr ⟨hs, List.forall_mem_cons.mpr hts⟩
    · exact ih (isApart_hull hts.1 hs) hts.2

/-- Putting a span into a set keeps the set normal and adds the addresses of the span.  By induction
    on the spans: those that come before are passed by, those that touch are joined, and at the
    first one after it the span has found its place. -/
theorem insert_spec (hs : s.Proper) (hts : Normal ts) :
    Normal (insert s ts) ∧ ∀ a, Holds (insert s ts) a ↔ s.contains a ∨ Holds ts a := by
  induction ts generalizing s with
  | nil => exact ⟨⟨by simpa [insert] using hs, List.pairwise_singleton _ _⟩,
      fun a => by simp [insert, Holds]⟩
  | cons t ts ih =>
    have ht : t.Proper := hts.proper t (List.mem_cons_self ..)
    obtain ⟨hapart, hrest⟩ := List.pairwise_cons.mp hts.apart
    have hts' : Normal ts := ⟨fun u hu => hts.proper u (List.mem_cons_of_mem _ hu), hrest⟩
    unfold insert
    split
    · -- The new span comes later, and goes on to the rest of the set.
      next hbefore =>
      obtain ⟨hnormal, hholds⟩ := ih hs hts'
      refine ⟨⟨List.forall_mem_cons.mpr ⟨ht, hnormal.proper⟩,
        List.pairwise_cons.mpr ⟨isApart_insert hbefore hapart, hnormal.apart⟩⟩, fun a => ?_⟩
      rw [holds_cons, hholds, holds_cons]
      exact or_left_comm
    · next hbefore =>
      split
      · -- It stands before all others.
        next hafter =>
        refine ⟨⟨List.forall_mem_cons.mpr ⟨hs, hts.proper⟩,
          List.pairwise_cons.mpr ⟨List.forall_mem_cons.mpr ⟨hafter, fun u hu => ?_⟩, hts.apart⟩⟩,
          holds_cons⟩
        exact isApart_trans hs ht (hts'.proper u hu) hafter (hapart u hu)
      · -- It meets the first span, and goes on to the rest as the hull of both.
        next hafter =>
        obtain ⟨hproper, hcontains⟩ := hull_spec ht hs hbefore hafter
        obtain ⟨hnormal, hholds⟩ := ih hproper hts'
        refine ⟨hnormal, fun a => ?_⟩
        rw [hholds, hcontains, holds_cons, or_assoc]
        exact or_left_comm

/-- Spans that are inserted one after another. -/
theorem foldl_insert_spec {ss : List AddressSpan} (hss : ∀ s ∈ ss, s.Proper) {ts : AddressSet}
    (hts : Normal ts) :
    Normal (ss.foldl (fun ts s => insert s ts) ts) ∧
      ∀ a, Holds (ss.foldl (fun ts s => insert s ts) ts) a ↔
        Holds ts a ∨ ∃ s ∈ ss, s.contains a := by
  induction ss generalizing ts with
  | nil => exact ⟨hts, by simp⟩
  | cons s ss ih =>
    rw [List.forall_mem_cons] at hss
    obtain ⟨hinsert, hholds⟩ := insert_spec hss.1 hts
    obtain ⟨hnormal, hrest⟩ := ih hss.2 hinsert
    refine ⟨hnormal, fun a => ?_⟩
    rw [List.foldl_cons, hrest, hholds]
    simp only [List.mem_cons, exists_eq_or_imp]
    rw [or_assoc]
    exact or_left_comm

/-- The set of some spans is normal and holds what one of them does. -/
theorem ofSpans_spec {ss : List AddressSpan} (hss : ∀ s ∈ ss, s.Proper) :
    Normal (ofSpans ss) ∧ ∀ a, Holds (ofSpans ss) a ↔ ∃ s ∈ ss, s.contains a := by
  obtain ⟨hnormal, hholds⟩ := foldl_insert_spec hss normal_nil
  refine ⟨hnormal, fun a => (hholds a).trans ?_⟩
  simp [Holds]

end AddressSet

end Allotment
