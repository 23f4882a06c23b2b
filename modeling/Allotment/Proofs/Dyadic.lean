import Mathlib
import Allotment.Dyadic

namespace Allotment.Dyadic

/-!
# Covers by dyadic blocks

`cover` halves a stretch of numbers until every part is a block.  That the parts make up the stretch
is the lesser half of the matter.  The other half is that no part could have been larger: a block
that lies within the stretch cannot reach across the middle at which the stretch is halved, for then
it would be the whole stretch, and that is not halved.  So every block within the stretch lies
within one of the parts.

* `Block.Has`, `Block.Aligned` — the numbers of a block, and where blocks may start;
* `Block.has_iff_div_eq` — the numbers of a block have one quotient;
* `Block.has_of_le` — of two blocks with a common number one lies within the other;
* `Tiles`, `Greatest` — blocks that make up some numbers, and that leave room for no larger one;
* `Tiles.length_le`, `Tiles.greatest_of_fewest` — such blocks are the fewest, and no others are;
* `Tiles.eq_of_greatest` — they are determined by the numbers;
* `Covers` — what is asked of the blocks of a stretch;
* `covers_cover` — `cover` gives such blocks.
-/

theorem size_eq (h : Nat) : size h = 2 ^ h :=
  Nat.one_shiftLeft h

/-- Blocks are as great as their host bits are many. -/
theorem size_lt_size_iff {h k : Nat} : size h < size k ↔ h < k := by
  rw [size_eq, size_eq]
  exact Nat.pow_lt_pow_iff_right (by decide)

theorem size_le_size_iff {h k : Nat} : size h ≤ size k ↔ h ≤ k := by
  rw [← Nat.not_lt, size_lt_size_iff, Nat.not_lt]

/-- The size of a block is a multiple of the sizes of all smaller blocks. -/
theorem size_dvd_size {h k : Nat} (hk : h ≤ k) : size h ∣ size k := by
  rw [size_eq, size_eq]
  exact pow_dvd_pow 2 hk

/-! ### Blocks -/

namespace Block

/-- The numbers of a block. -/
def Has (B : Block) (n : Nat) : Prop :=
  B.start ≤ n ∧ n < B.start + size B.hostBits

/-- A block that starts at a multiple of its size. -/
def Aligned (B : Block) : Prop :=
  size B.hostBits ∣ B.start

variable {B : Block}

instance (B : Block) (n : Nat) : Decidable (B.Has n) :=
  inferInstanceAs (Decidable (_ ∧ _))

/-- A block has the number that it starts with. -/
theorem has_start (B : Block) : B.Has B.start :=
  ⟨le_refl _, Nat.lt_add_of_pos_right (size_pos _)⟩

/-- A block has the number before its end. -/
theorem has_last (B : Block) : B.Has (B.start + size B.hostBits - 1) := by
  have hpos := size_pos B.hostBits
  unfold Has
  omega

/-- A block is determined by its numbers. -/
theorem eq_of_has_iff {D : Block} (h : ∀ n, B.Has n ↔ D.Has n) : B = D := by
  have hstart := (h D.start).mpr D.has_start
  have hstart' := (h B.start).mp B.has_start
  have hend := (h _).mp B.has_last
  have hend' := (h _).mpr D.has_last
  have hpos := size_pos B.hostBits
  have hpos' := size_pos D.hostBits
  unfold Has at hstart hstart' hend hend'
  -- Each block has the ends of the other one, so neither is the greater one.
  have hbits : B.hostBits = D.hostBits :=
    Nat.le_antisymm (size_le_size_iff.mp (by omega)) (size_le_size_iff.mp (by omega))
  cases B
  cases D
  simp only [mk.injEq] at hbits hstart hstart' ⊢
  omega

/-- The numbers of a block are those with the quotient of its start. -/
theorem has_iff_div_eq (hB : B.Aligned) (n : Nat) :
    B.Has n ↔ n / size B.hostBits = B.start / size B.hostBits := by
  have hpos := size_pos B.hostBits
  obtain ⟨k, hk⟩ := hB
  rw [Has, hk, Nat.mul_div_cancel_left k hpos, Nat.div_eq_iff hpos, Nat.mul_comm k]
  omega

/-- A block has with a number all the numbers that agree with it above the bits of a lesser
    block. -/
theorem has_of_div_eq (hB : B.Aligned) {h m n : Nat} (hle : h ≤ B.hostBits) (hm : B.Has m)
    (h : m / size h = n / size h) : B.Has n := by
  rw [has_iff_div_eq hB] at hm ⊢
  obtain ⟨k, hk⟩ := size_dvd_size hle
  rw [← hm, hk, ← Nat.div_div_eq_div_mul, ← Nat.div_div_eq_div_mul, h]

/-- Of two blocks with a common number, the lesser one lies within the other. -/
theorem has_of_le {D : Block} (hB : B.Aligned) (hD : D.Aligned) (hle : B.hostBits ≤ D.hostBits)
    {m n : Nat} (hBm : B.Has m) (hDm : D.Has m) (hn : B.Has n) : D.Has n := by
  rw [has_iff_div_eq hB] at hBm hn
  exact has_of_div_eq hD hle hDm (hBm.trans hn.symm)

/-- A block that has a multiple of a power of two and the number before it is larger than the
    power. -/
theorem lt_hostBits_of_has (hB : B.Aligned) {h k : Nat} (hk : 0 < k)
    (hbefore : B.Has (size h * k - 1)) (hat : B.Has (size h * k)) : h < B.hostBits := by
  by_contra hle
  -- A lesser block starts at every multiple of the power, so it does not have the number before.
  obtain ⟨j, hj⟩ := size_dvd_size (Nat.le_of_not_lt hle)
  have hpos := size_pos B.hostBits
  have hprod : 0 < size h * k := Nat.mul_pos (size_pos h) hk
  rw [has_iff_div_eq hB] at hbefore hat
  have hsame : (size h * k - 1) / size B.hostBits = size h * k / size B.hostBits :=
    hbefore.trans hat.symm
  rw [hj, Nat.mul_assoc] at hsame hprod
  rw [Nat.mul_div_cancel_left _ hpos, Nat.div_eq_iff hpos] at hsame
  have hcomm := Nat.mul_comm (j * k) (size B.hostBits)
  omega

end Block

/-! ### Tilings -/

/-- Blocks in increasing order that make up the numbers of `S`. -/
structure Tiles (S : Nat → Prop) (L : List Block) : Prop where
  aligned : ∀ B ∈ L, B.Aligned
  increasing : L.Pairwise fun B C => B.start + size B.hostBits ≤ C.start
  has_iff : ∀ n, (∃ B ∈ L, B.Has n) ↔ S n

/-- Each block of numbers of `S` lies within one of the blocks. -/
def Greatest (S : Nat → Prop) (L : List Block) : Prop :=
  ∀ D : Block, D.Aligned → (∀ n, D.Has n → S n) → ∃ B ∈ L, ∀ n, D.Has n → B.Has n

namespace Tiles

variable {S S' : Nat → Prop} {L L' M : List Block}

/-- Tilings of the same numbers. -/
theorem of_iff (hL : Tiles S L) (h : ∀ n, S n ↔ S' n) : Tiles S' L :=
  ⟨hL.aligned, hL.increasing, fun n => (hL.has_iff n).trans (h n)⟩

/-- The blocks of a tiling have no other numbers than those that are tiled. -/
theorem of_mem (hL : Tiles S L) {B : Block} (hB : B ∈ L) {n : Nat} (hn : B.Has n) : S n :=
  (hL.has_iff n).mp ⟨B, hB, hn⟩

/-- No number is in two blocks of a tiling. -/
theorem eq_of_has (hL : Tiles S L) {B C : Block} (hB : B ∈ L) (hC : C ∈ L) {n : Nat} (hBn : B.Has n)
    (hCn : C.Has n) : B = C := by
  by_contra hne
  have : Std.Symm fun B C : Block => ¬ (B.Has n ∧ C.Has n) := ⟨fun _ _ h h' => h h'.symm⟩
  have hapart : L.Pairwise fun B C => ¬ (B.Has n ∧ C.Has n) := by
    refine hL.increasing.imp fun h => ?_
    unfold Block.Has
    omega
  exact hapart.forall hB hC hne ⟨hBn, hCn⟩

/-- No block occurs twice in a tiling. -/
theorem nodup (hL : Tiles S L) : L.Nodup := by
  refine hL.increasing.imp ?_
  rintro B C h rfl
  have hpos := size_pos B.hostBits
  omega

/-- Tilings of numbers of which the ones come before the others. -/
theorem append (hL : Tiles S L) (hL' : Tiles S' L') (hlt : ∀ m n, S m → S' n → m < n) :
    Tiles (fun n => S n ∨ S' n) (L ++ L') where
  aligned B hB := (List.mem_append.mp hB).elim (hL.aligned B) (hL'.aligned B)
  increasing := by
    rw [List.pairwise_append]
    refine ⟨hL.increasing, hL'.increasing, fun B hB C hC => ?_⟩
    have hpos := size_pos B.hostBits
    have hend := hlt _ _ (hL.of_mem hB B.has_last) (hL'.of_mem hC C.has_start)
    omega
  has_iff n := by
    simp only [List.mem_append, or_and_right, exists_or, hL.has_iff, hL'.has_iff]

/-- The blocks of the other list that have the first numbers of the blocks are all different, since
    each of them lies within one block. -/
theorem length_le (hL : Tiles S L) (hgreatest : Greatest S L) (hM : ∀ D ∈ M, D.Aligned)
    (hhas : ∀ n, (∃ D ∈ M, D.Has n) ↔ S n) : L.length ≤ M.length := by
  -- Each block of `L` has all of a block of `M`: the one with its first number, which some block of
  -- `L` has in full.
  have hexists : ∀ B ∈ L, ∃ D ∈ M, D.Has B.start ∧ ∀ n, D.Has n → B.Has n := by
    intro B hB
    obtain ⟨D, hD, hstart⟩ := (hhas B.start).mpr (hL.of_mem hB B.has_start)
    obtain ⟨C, hC, hsub⟩ := hgreatest D (hM D hD) fun n hn => (hhas n).mp ⟨D, hD, hn⟩
    obtain rfl := hL.eq_of_has hB hC B.has_start (hsub _ hstart)
    exact ⟨D, hD, hstart, hsub⟩
  choose! f hmem hstart hsub using hexists
  -- Different blocks of `L` get different blocks of `M`, since they have no number in common.
  have hnodup : (L.map f).Nodup := by
    refine List.Nodup.map_on ?_ hL.nodup
    intro B hB C hC heq
    exact hL.eq_of_has hB hC B.has_start (hsub C hC _ (heq ▸ hstart B hB))
  have hsubset : L.map f ⊆ M := by
    intro D hD
    obtain ⟨B, hB, rfl⟩ := List.mem_map.mp hD
    exact hmem B hB
  calc L.length = (L.map f).length := (List.length_map f).symm
    _ ≤ M.length := (List.subperm_of_subset hnodup hsubset).length_le

/-- A larger block can take the place of those within it, which are two at least. -/
theorem greatest_of_fewest (hL : Tiles S L)
    (hfewest : ∀ M : List Block, (∀ D ∈ M, D.Aligned) → (∀ n, (∃ D ∈ M, D.Has n) ↔ S n) →
      L.length ≤ M.length) :
    Greatest S L := by
  intro D hD hin
  by_contra hnone
  push Not at hnone
  -- A block with a number of `D` lies within `D`, for otherwise `D` would lie within the block.
  have hwithin : ∀ B ∈ L, ∀ m, D.Has m → B.Has m → ∀ n, B.Has n → D.Has n := by
    intro B hB m hDm hBm n hn
    by_cases hle : B.hostBits ≤ D.hostBits
    · exact Block.has_of_le (hL.aligned B hB) hD hle hBm hDm hn
    · obtain ⟨k, hDk, hBk⟩ := hnone B hB
      exact absurd (Block.has_of_le hD (hL.aligned B hB) (Nat.le_of_not_le hle) hDm hBm hDk) hBk
  obtain ⟨B, hB, hBstart⟩ := (hL.has_iff D.start).mpr (hin _ D.has_start)
  obtain ⟨n, hDn, hBn⟩ := hnone B hB
  obtain ⟨C, hC, hCn⟩ := (hL.has_iff n).mpr (hin n hDn)
  have hinner : [B, C] ⊆ L.filter fun E => D.Has E.start := by
    have hB' := hwithin B hB _ D.has_start hBstart _ B.has_start
    have hC' := hwithin C hC n hDn hCn _ C.has_start
    simp [hB, hC, hB', hC']
  have hne : B ≠ C := by
    rintro rfl
    exact hBn hCn
  have htwo : 2 ≤ (L.filter fun E => D.Has E.start).length :=
    (List.subperm_of_subset (by simpa using hne) hinner).length_le
  have hshorter := hfewest (D :: L.filter fun E => ¬ D.Has E.start) ?_ fun n => ?_
  · have hsum := L.length_eq_length_filter_add fun E => decide (D.Has E.start)
    simp only [List.length_cons, decide_not] at hshorter
    omega
  · simp only [List.forall_mem_cons, List.mem_filter]
    exact ⟨hD, fun E hE => hL.aligned E hE.1⟩
  · simp only [List.mem_cons, List.mem_filter, decide_eq_true_eq, exists_eq_or_imp]
    constructor
    · rintro (hn | ⟨E, ⟨hE, -⟩, hn⟩)
      · exact hin n hn
      · exact hL.of_mem hE hn
    · intro hn
      obtain ⟨E, hE, hEn⟩ := (hL.has_iff n).mpr hn
      by_cases hstart : D.Has E.start
      · exact Or.inl (hwithin E hE _ hstart E.has_start n hEn)
      · exact Or.inr ⟨E, ⟨hE, hstart⟩, hEn⟩

/-- The block of another tiling within which a block lies has no more numbers than that. -/
theorem mem_of_greatest (hL : Tiles S L) (hgreatest : Greatest S L) (hM : Tiles S M)
    (hgreatest' : Greatest S M) {B : Block} (hB : B ∈ L) : B ∈ M := by
  obtain ⟨C, hC, hBC⟩ := hgreatest' B (hL.aligned B hB) fun n hn => hL.of_mem hB hn
  obtain ⟨D, hD, hCD⟩ := hgreatest C (hM.aligned C hC) fun n hn => hM.of_mem hC hn
  obtain rfl := hL.eq_of_has hB hD B.has_start (hCD _ (hBC _ B.has_start))
  rwa [Block.eq_of_has_iff fun n => ⟨hBC n, hCD n⟩]

/-- Tilings that leave room for no larger block are equal. -/
theorem eq_of_greatest (hL : Tiles S L) (hgreatest : Greatest S L) (hM : Tiles S M)
    (hgreatest' : Greatest S M) : L = M := by
  have hperm : L.Perm M := (List.perm_ext_iff_of_nodup hL.nodup hM.nodup).mpr fun B =>
    ⟨hL.mem_of_greatest hgreatest hM hgreatest', hM.mem_of_greatest hgreatest' hL hgreatest⟩
  refine hperm.eq_of_pairwise ?_ hL.increasing hM.increasing
  intro B C _ _ hBC hCB
  have hpos := size_pos B.hostBits
  have hpos' := size_pos C.hostBits
  omega

end Tiles

/-! ### Halving -/

/-- The next higher bits are what is left of the number without its lowest bit. -/
theorem div_size_succ (n h : Nat) : n / size (h + 1) = n / size h / 2 := by
  rw [size_succ, Nat.mul_comm, Nat.div_div_eq_div_mul]

/-- A bit is the lowest one of what is left without all bits below it. -/
theorem testBit_eq (n h : Nat) : n.testBit h = decide (n / size h % 2 = 1) := by
  rw [Nat.testBit_eq_decide_div_mod_eq, size_eq]

/-- Numbers that agree above `h + 1` bits and in the next bit agree above `h` bits. -/
theorem div_size_eq_of_testBit_eq {h a b : Nat} (hagree : a / size (h + 1) = b / size (h + 1))
    (hbit : a.testBit h = b.testBit h) : a / size h = b / size h := by
  rw [div_size_succ, div_size_succ] at hagree
  rw [testBit_eq, testBit_eq, decide_eq_decide] at hbit
  omega

/-- Setting the lowest bits of a number leads to the end of its stretch. -/
theorem or_mask_eq (a h : Nat) : a ||| (size h - 1) = size h * (a / size h) + (size h - 1) := by
  have hpos := Nat.two_pow_pos h
  -- The lower bits are all set, whatever they were.
  have hmod : a % 2 ^ h ||| (2 ^ h - 1) = 2 ^ h - 1 := by
    apply Nat.eq_of_testBit_eq
    intro i
    rw [Nat.testBit_or, Nat.testBit_mod_two_pow, Nat.testBit_two_pow_sub_one]
    by_cases hi : i < h <;> simp [hi]
  rw [size_eq]
  calc a ||| (2 ^ h - 1)
    _ = (2 ^ h * (a / 2 ^ h) + a % 2 ^ h) ||| (2 ^ h - 1) := by rw [Nat.div_add_mod]
    _ = 2 ^ h * (a / 2 ^ h) ||| (2 ^ h - 1) := by
      rw [Nat.two_pow_add_eq_or_of_lt (Nat.mod_lt _ hpos), Nat.or_assoc, hmod]
    _ = 2 ^ h * (a / 2 ^ h) + (2 ^ h - 1) := by rw [Nat.two_pow_add_eq_or_of_lt (by omega)]

/-- Setting the lower bits leaves the higher ones as they are. -/
theorem or_mask_div (a h : Nat) : (a ||| (size h - 1)) / size h = a / size h := by
  have hpos := size_pos h
  rw [or_mask_eq, Nat.mul_add_div hpos, Nat.div_eq_of_lt (a := size h - 1) (by omega), Nat.add_zero]

/-- Clearing the lowest bits of a number leads to the start of its stretch. -/
theorem sub_mod_eq (b h : Nat) : b - b % size h = size h * (b / size h) := by
  have hdiv := Nat.div_add_mod b (size h)
  omega

/-- Clearing the lower bits leaves the higher ones as they are. -/
theorem sub_mod_div (b h : Nat) : (b - b % size h) / size h = b / size h := by
  rw [sub_mod_eq, Nat.mul_div_cancel_left _ (size_pos h)]

/-- Where the stretch of the numbers that agree with `a` above `h + 1` bits is halved. -/
def middle (h a : Nat) : Nat :=
  size h * (2 * (a / size (h + 1)) + 1)

/-- Numbers in order that differ first in the bit `h` lie on the two sides of the middle.  Setting
    or clearing the bits past that one leads up to it. -/
theorem middle_spec {h a b : Nat} (hab : a ≤ b) (hagree : a / size (h + 1) = b / size (h + 1))
    (hbit : a.testBit h ≠ b.testBit h) :
    a < middle h a ∧ middle h a ≤ b ∧ a ||| (size h - 1) = middle h a - 1 ∧
      b - b % size h = middle h a := by
  have hle : a / size h ≤ b / size h := Nat.div_le_div_right hab
  have hsucc := div_size_succ a h
  rw [div_size_succ, div_size_succ] at hagree
  rw [testBit_eq, testBit_eq, ne_eq, decide_eq_decide] at hbit
  -- The bits differ and `a` is not the greater one, so `a` is in the lower half and `b` in the
  -- upper one.
  have hlow : a / size h = 2 * (a / size (h + 1)) := by omega
  have hhigh : b / size h = 2 * (a / size (h + 1)) + 1 := by omega
  have ha := Nat.div_add_mod a (size h)
  have hb := Nat.div_add_mod b (size h)
  have hmod := Nat.mod_lt a (size_pos h)
  have hmul : middle h a = size h * (2 * (a / size (h + 1))) + size h := Nat.mul_succ _ _
  rw [or_mask_eq, sub_mod_eq, hhigh, hlow]
  rw [hlow] at ha
  rw [hhigh] at hb
  refine ⟨by omega, ?_, by omega, rfl⟩
  unfold middle
  omega

/-- What it takes for two numbers to be the ends of a block. -/
theorem isBlock_iff (h a b : Nat) : isBlock h a b ↔ a % size h = 0 ∧ b % size h = size h - 1 := by
  rw [isBlock, Bool.and_eq_true, beq_iff_eq, beq_iff_eq]

/-! ### Covers -/

/-- Blocks that make up the stretch from `a` to `b`, in increasing order.  Each block within the
    stretch lies within one of them. -/
structure Covers (a b : Nat) (L : List Block) : Prop extends Tiles (fun n => a ≤ n ∧ n ≤ b) L where
  greatest : Greatest (fun n => a ≤ n ∧ n ≤ b) L

/-- The blocks lie within the stretch. -/
theorem Covers.bounds {a b : Nat} {L : List Block} (hL : Covers a b L) {B : Block} (hB : B ∈ L) :
    a ≤ B.start ∧ B.start + size B.hostBits ≤ b + 1 := by
  have hpos := size_pos B.hostBits
  have hstart := hL.of_mem hB B.has_start
  have hend := hL.of_mem hB B.has_last
  omega

/-- A block covers the stretch of its own numbers. -/
theorem covers_singleton {B : Block} {b : Nat} (hB : B.Aligned)
    (hb : b + 1 = B.start + size B.hostBits) : Covers B.start b [B] where
  aligned := by simpa using hB
  increasing := List.pairwise_singleton _ _
  has_iff n := by
    simp only [List.mem_singleton, exists_eq_left, Block.Has]
    omega
  greatest D _ hD := by
    refine ⟨B, List.mem_singleton_self B, fun n hn => ?_⟩
    have hn' := hD n hn
    unfold Block.Has
    omega

/-- Covers of two stretches that abut, when no block within both reaches across the middle. -/
theorem Covers.append {a m b : Nat} {L L' : List Block} (hL : Covers a (m - 1) L)
    (hL' : Covers m b L') (ham : a < m) (hmb : m ≤ b)
    (hmiddle : ∀ D : Block, D.Aligned → (∀ n, D.Has n → a ≤ n ∧ n ≤ b) →
      ¬ (D.Has (m - 1) ∧ D.Has m)) :
    Covers a b (L ++ L') where
  toTiles := (hL.toTiles.append hL'.toTiles fun m' n hm' hn => by omega).of_iff fun n => by omega
  greatest D hD hin := by
    have hnot := hmiddle D hD hin
    have hfirst := hin D.start D.has_start
    have hpos := size_pos D.hostBits
    -- The block lies on the side of the middle on which it starts.
    by_cases hside : D.start < m
    · have hbefore : ∀ n, D.Has n → a ≤ n ∧ n ≤ m - 1 := by
        intro n hn
        have hn' := hin n hn
        unfold Block.Has at hn hnot
        omega
      obtain ⟨B, hB, hsub⟩ := hL.greatest D hD hbefore
      exact ⟨B, List.mem_append_left _ hB, hsub⟩
    · have hafter : ∀ n, D.Has n → m ≤ n ∧ n ≤ b := by
        intro n hn
        have hn' := hin n hn
        unfold Block.Has at hn
        omega
      obtain ⟨B, hB, hsub⟩ := hL'.greatest D hD hafter
      exact ⟨B, List.mem_append_right _ hB, hsub⟩

/-- A block within a stretch that reaches across its middle is the whole stretch. -/
theorem isBlock_of_has_middle {h a b : Nat} (hagree : a / size (h + 1) = b / size (h + 1))
    {D : Block} (hD : D.Aligned) (hin : ∀ n, D.Has n → a ≤ n ∧ n ≤ b)
    (hbefore : D.Has (middle h a - 1)) (hat : D.Has (middle h a)) : isBlock (h + 1) a b := by
  have hsucc := size_succ h
  have hpos := size_pos h
  have hlt := Block.lt_hostBits_of_has hD (Nat.succ_pos _) hbefore hat
  have hdiv : ∀ i, i < size (h + 1) →
      (size (h + 1) * (a / size (h + 1)) + i) / size (h + 1) = a / size (h + 1) := by
    intro i hi
    rw [Nat.mul_add_div (size_pos _), Nat.div_eq_of_lt hi, Nat.add_zero]
  -- The block is larger than half the stretch, so it has all the numbers that agree with the
  -- middle.
  have hmiddle : middle h a = size (h + 1) * (a / size (h + 1)) + size h := by
    rw [middle, size_succ]
    ring
  have hhas : ∀ i, i < size (h + 1) → D.Has (size (h + 1) * (a / size (h + 1)) + i) := by
    intro i hi
    refine Block.has_of_div_eq hD hlt hat ?_
    rw [hmiddle, hdiv _ (by omega), hdiv i hi]
  have hfirst := hin _ (hhas 0 (by omega))
  have hlast := hin _ (hhas (size (h + 1) - 1) (by omega))
  have ha := Nat.div_add_mod a (size (h + 1))
  have hb := Nat.div_add_mod b (size (h + 1))
  have hmod := Nat.mod_lt b (size_pos (h + 1))
  rw [← hagree] at hb
  rw [isBlock_iff]
  omega

/-- **`cover` makes up a stretch of the largest blocks in it.**  By induction on the bits: the ends
    agree above them, and where they differ in the highest bit left, the stretch is halved there. -/
theorem covers_cover {h a b : Nat} (hab : a ≤ b) (hagree : a / size h = b / size h) :
    Covers a b (cover h a b) := by
  induction h generalizing a b with
  | zero =>
    have hsize : size 0 = 1 := rfl
    rw [hsize, Nat.div_one, Nat.div_one] at hagree
    exact covers_singleton (B := ⟨a, 0⟩) (one_dvd a) (by rw [← hagree]; rfl)
  | succ h ih =>
    unfold cover
    by_cases hbit : a.testBit h = b.testBit h
    · -- Both ends are in the same half.
      rw [if_pos (beq_iff_eq.mpr hbit)]
      exact ih hab (div_size_eq_of_testBit_eq hagree hbit)
    rw [if_neg (by simpa using hbit)]
    by_cases hblock : isBlock (h + 1) a b
    · -- The ends are those of a whole block.
      rw [if_pos hblock]
      obtain ⟨hfirst, hlast⟩ := (isBlock_iff _ _ _).mp hblock
      refine covers_singleton (B := ⟨a, h + 1⟩) (Nat.dvd_of_mod_eq_zero hfirst) ?_
      show b + 1 = a + size (h + 1)
      have ha := Nat.div_add_mod a (size (h + 1))
      have hb := Nat.div_add_mod b (size (h + 1))
      have hpos := size_pos (h + 1)
      rw [← hagree] at hb
      omega
    · -- The two halves are covered one by one.  No block lies across the middle, for it would be
      -- the whole.
      rw [if_neg hblock]
      obtain ⟨ham, hmb, hor, hsub⟩ := middle_spec hab hagree hbit
      have hleft := ih (a := a) (b := a ||| (size h - 1)) (by omega) (or_mask_div a h).symm
      have hright := ih (a := b - b % size h) (Nat.sub_le ..) (sub_mod_div b h)
      rw [hor] at hleft ⊢
      rw [hsub] at hright ⊢
      refine hleft.append hright ham hmb ?_
      rintro D hD hin ⟨hbefore, hat⟩
      exact hblock (isBlock_of_has_middle hagree hD hin hbefore hat)

/-! ### The cover of one block -/

namespace Covers

variable {a b : Nat} {L : List Block}

/-- Blocks that make up the numbers of one block are that block. -/
theorem eq_singleton {D : Block} (hD : D.Aligned) (hL : Covers a b L)
    (hhas : ∀ n, D.Has n ↔ a ≤ n ∧ n ≤ b) : L = [D] := by
  have hlength := hL.toTiles.length_le hL.greatest (M := [D]) (by simpa using hD)
    (by simpa using hhas)
  obtain ⟨B, hB, -⟩ := (hL.has_iff D.start).mpr ((hhas _).mp D.has_start)
  -- There is one block at most, and it has the numbers of the other one.
  obtain rfl : L = [B] := by
    match L, hB, hlength with
    | [C], hB, _ => rw [List.mem_singleton.mp hB]
  have hsame : ∀ n, B.Has n ↔ D.Has n := fun n => by
    rw [hhas, ← hL.has_iff]
    simp
  rw [Block.eq_of_has_iff hsame]

end Covers

end Allotment.Dyadic
