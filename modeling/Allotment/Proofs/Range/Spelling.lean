import Allotment.Proofs.Range.Notation

namespace Allotment.Range

/-!
# The spellings of a range

A range is printed with brackets, and an end without a bound as a signed infinity.  The same range
may be written with two dots, with other words for infinity or none, and with blanks.  All these
texts are read as the range.

* `EndWord`, `Respelled` — the words for an end, and the spellings of an interval;
* `Respelled.exists_notated` — a spelling of a valid interval is in interval notation;
* `respelled_text` — so is what is printed, which is one of them;
* `parseInt_respelled` — what is printed is read back, in every spelling.
-/

open Text (Blanks Padded)

/-- The word for an end: the value beside its cut in decimal notation, or a spelling of infinity. -/
inductive EndWord (infinities : List String) : Cut Int64 → Text → Prop where
  | number {c : Cut Int64} {v : Int64} (h : c.endpoint? = some v) :
      EndWord infinities c (Text.ofString (Decimal.ofInt v.toInt))
  | infinite {c : Cut Int64} {t : Text} (h : c.endpoint? = none) (ht : Spelled infinities t) :
      EndWord infinities c t

/-- Whether the value beside a lower cut belongs to the interval. -/
def keepsLower : Cut Int64 → Bool
  | .below _ => true
  | _ => false

/-- Whether the value beside an upper cut belongs to the interval. -/
def keepsUpper : Cut Int64 → Bool
  | .above _ => true
  | _ => false

/-- The text of an interval with either separator, any spelling of infinity, and blanks around the
    text and around its ends. -/
inductive Respelled (i : Interval Int64) : Text → Prop where
  | intro {lowerWord upperWord front back separator s : Text}
      (hlower : EndWord lowerInfinities i.lower lowerWord) (hfront : Padded lowerWord front)
      (hupper : EndWord upperInfinities i.upper upperWord) (hback : Padded upperWord back)
      (hseparator : separator ∈ separators)
      (hs : Padded (opening (keepsLower i.lower) ::
        (front ++ separator ++ back ++ [closing (keepsUpper i.upper)])) s) : Respelled i s

/-! ### The spellings of a valid interval -/

section Printing

variable {i : Interval Int64}

/-- The word for an end is read as its cut, if the cut of a value is that of the bracket and no
    other cut than the outermost one has no value beside it. -/
theorem EndWord.toEnd {infinities : List String} {beyond c : Cut Int64}
    {cutOf : Int64 → Bool → Cut Int64} {closed : Bool} {t : Text} (h : EndWord infinities c t)
    (hvalue : ∀ v, c.endpoint? = some v → cutOf v closed = c)
    (hbeyond : c.endpoint? = none → closed = false ∧ beyond = c) :
    End infinities beyond cutOf closed t c := by
  cases h with
  | @number v h =>
    rw [← hvalue v h]
    exact .number (Decimal.signed_ofInt _)
  | infinite h ht =>
    obtain ⟨rfl, rfl⟩ := hbeyond h
    exact .infinite ht

/-- The words for a lower cut are lower ends. -/
theorem EndWord.lowerEnd {c : Cut Int64} {t : Text} (h : EndWord lowerInfinities c t)
    (hc : c.isTop = false) : LowerEnd (keepsLower c) t c := by
  refine h.toEnd (fun v hv => ?_) fun hnone => ?_
  · cases c <;> cases hv <;> rfl
  · cases c with
    | bottom => exact ⟨rfl, rfl⟩
    | below v => cases hnone
    | above v => cases hnone
    | top => cases hc

/-- The words for an upper cut are upper ends. -/
theorem EndWord.upperEnd {c : Cut Int64} {t : Text} (h : EndWord upperInfinities c t)
    (hc : c.isBottom = false) : UpperEnd (keepsUpper c) t c := by
  refine h.toEnd (fun v hv => ?_) fun hnone => ?_
  · cases c <;> cases hv <;> rfl
  · cases c with
    | bottom => cases hc
    | below v => cases hnone
    | above v => cases hnone
    | top => exact ⟨rfl, rfl⟩

/-- A valid interval does not start after all numbers or end before all of them. -/
theorem cuts_of_isValid (hi : i.isValid Order.int64) :
    i.lower.isTop = false ∧ i.upper.isBottom = false := by
  simp only [Interval.isValid, Bool.and_eq_true, Bool.not_eq_true'] at hi
  exact hi.1

/-- Every spelling of the text of a valid interval is in interval notation. -/
theorem Respelled.exists_notated (hi : i.isValid Order.int64) {s : Text} (h : Respelled i s) :
    ∃ t, Padded t s ∧ Notated t i := by
  obtain ⟨hlower, hfront, hupper, hback, hseparator, hs⟩ := h
  obtain ⟨htop, hbottom⟩ := cuts_of_isValid hi
  exact ⟨_, hs, .bracketed (hlower.lowerEnd htop) hfront (hupper.upperEnd hbottom) hback hseparator⟩

/-- The text of a lower cut is a bracket and a word. -/
theorem exists_lowerText {c : Cut Int64} (hc : c.isTop = false) :
    ∃ word, EndWord lowerInfinities c word ∧
      Text.ofString (Interval.lowerText c) = opening (keepsLower c) :: word := by
  cases c with
  | bottom => exact ⟨Text.ofString "-∞",
      .infinite rfl ((isSpelling_iff fun _ => Or.inl).mp (by decide)), by decide⟩
  | below v => exact ⟨_, .number rfl, Text.ofString_append "[" _⟩
  | above v => exact ⟨_, .number rfl, Text.ofString_append "(" _⟩
  | top => cases hc

/-- The text of an upper cut is a word and a bracket. -/
theorem exists_upperText {c : Cut Int64} (hc : c.isBottom = false) :
    ∃ word, EndWord upperInfinities c word ∧
      Text.ofString (Interval.upperText c) = word ++ [closing (keepsUpper c)] := by
  cases c with
  | bottom => cases hc
  | below v => exact ⟨_, .number rfl, Text.ofString_append _ ")"⟩
  | above v => exact ⟨_, .number rfl, Text.ofString_append _ "]"⟩
  | top => exact ⟨Text.ofString "+∞",
      .infinite rfl ((isSpelling_iff fun _ => Or.inr).mp (by decide)), by decide⟩

/-- The text of a valid interval is one of its spellings. -/
theorem respelled_text (hi : i.isValid Order.int64) : Respelled i (Text.ofString i.text) := by
  obtain ⟨htop, hbottom⟩ := cuts_of_isValid hi
  obtain ⟨lowerWord, hlower, hlowerText⟩ := exists_lowerText htop
  obtain ⟨upperWord, hupper, hupperText⟩ := exists_upperText hbottom
  have htext : Text.ofString i.text = opening (keepsLower i.lower) ::
      (lowerWord ++ Text.ofString "‥" ++ upperWord ++ [closing (keepsUpper i.upper)]) := by
    rw [Interval.text, Text.ofString_append, Text.ofString_append, hlowerText, hupperText]
    simp
  have hseparator : Text.ofString "‥" ∈ separators := List.mem_cons_self
  refine .intro hlower (Text.padded_self _) hupper (Text.padded_self _) hseparator ?_
  rw [htext]
  exact Text.padded_self _

end Printing

/-- **What is printed is read back, in every spelling.**  The text of a valid range of words in
    their natural order is read as this range, with the same cuts, also when it is empty, has no
    bound, or ends at the least or the greatest word.  So is every other spelling of it: with either
    separator, with any spelling of infinity in any letter case, and with blanks around the text and
    around its ends.  A lone number is read as the range of that number, and two numbers in order
    around a hyphen, with blanks around it or without, as the range from one to the other. -/
theorem parseInt_respelled :
    (∀ r : Range Int64, r.cmp = Order.int64 → r.isValid →
      parseInt (Text.ofString r.text) = .ok r ∧
        ∀ s, Respelled r.toInterval s → parseInt s = .ok r) ∧
    (∀ (a : Int64) (s : Text), Padded (Text.ofString (display a)) s →
      parseInt s = .ok ⟨.singleton a, Order.int64⟩) ∧
    ∀ (a b : Int64) (front back s : Text), a ≤ b → Blanks front → Blanks back →
      Padded (Text.ofString (display a) ++ front ++
        .char '-' :: (back ++ Text.ofString (display b))) s →
        parseInt s = .ok ⟨.closed a b, Order.int64⟩ := by
  refine ⟨?_, fun a s hs => ?_, fun a b front back s hle hfront hback hs => ?_⟩
  · intro r hr hvalid
    have hi : r.toInterval.isValid Order.int64 := by
      rw [← hr]
      exact hvalid
    have hread : ∀ s, Respelled r.toInterval s → parseInt s = .ok r := fun s hs =>
      parseInt_eq_ok_iff.mpr ⟨hr, hvalid, hs.exists_notated hi⟩
    exact ⟨hread _ (respelled_text hi), hread⟩
  · refine parseInt_eq_ok_iff.mpr ⟨rfl, ?_, _, hs, .lone (Decimal.signed_ofInt _)⟩
    exact (isValid_closed_iff a a).mpr (Int.le_refl _)
  · have hle' : a.toInt ≤ b.toInt := Int64.le_iff_toInt_le.mp hle
    refine parseInt_eq_ok_iff.mpr ⟨rfl, (isValid_closed_iff a b).mpr hle', _, hs, ?_⟩
    exact .pair (Decimal.signed_ofInt _) (Decimal.signed_ofInt _) hle' hfront hback

/-- The words after the least one. -/
def sampleUnbounded : Range Int64 :=
  ⟨⟨.above Int64.minValue, .top⟩, Order.int64⟩

/-- A range from next to the least word without end, in two spellings, a negative number, and two of
    them around a hyphen. -/
theorem sampleUnbounded_respelled :
    parseInt (Text.ofString "(-9223372036854775808‥+∞)") = .ok sampleUnbounded ∧
      parseInt (Text.ofString " ( -9223372036854775808 .. +InF)\t") = .ok sampleUnbounded ∧
      parseInt (Text.ofString "-5") = .ok ⟨.singleton (-5), Order.int64⟩ ∧
      parseInt (Text.ofString "-5 --3") = .ok ⟨.closed (-5) (-3), Order.int64⟩ := by
  obtain ⟨hranges, hlone, hpair⟩ := parseInt_respelled
  obtain ⟨htext, hrespelled⟩ := hranges sampleUnbounded rfl (by decide)
  have hblank : Blanks [.char ' '] := by
    intro g hg
    rw [List.mem_singleton.mp hg]
    rfl
  have htab : Blanks [.char '\t'] := by
    intro g hg
    rw [List.mem_singleton.mp hg]
    rfl
  have hword : EndWord upperInfinities .top (Text.ofString "+InF") :=
    .infinite rfl ((isSpelling_iff fun _ => Or.inr).mp (by decide))
  refine ⟨htext, hrespelled _ ?_, hlone (-5) _ (Text.padded_self _), ?_⟩
  · exact .intro (.number rfl) ⟨[.char ' '], [.char ' '], hblank, hblank, rfl⟩ hword
      ⟨[.char ' '], [], hblank, Text.blanks_nil, rfl⟩ (List.mem_cons_of_mem _ List.mem_cons_self)
      ⟨[.char ' '], [.char '\t'], hblank, htab, rfl⟩
  · exact hpair (-5) (-3) [.char ' '] [] _ (by decide) hblank Text.blanks_nil (Text.padded_self _)

end Allotment.Range
