import Mathlib.Data.List.Forall2
import Allotment.Text.Glyph

namespace Allotment.Text

/-!
# Words in any letter case

A text is a word up to letter case when each of its glyphs is the letter of the word at its place,
or the capital of that letter.  Besides the capitals, two letters that are no ASCII ones fold to an
ASCII letter, so this holds for words without an `s` and a `k`.

* `AnyCase` — a word in any letter case;
* `matchesWord_iff_anyCase` — what counts as a word;
* `mem_of_matchesWord`, `exists_mem_of_matchesWord` — the glyphs of such a text.
-/

theorem ofString_append (s t : String) : ofString (s ++ t) = ofString s ++ ofString t := by
  rw [ofString, String.toList_append, List.map_append]
  rfl

/-- The text `t` is the word `w`, with each letter as it is or as a capital. -/
def AnyCase (w : String) (t : Text) : Prop :=
  List.Forall₂ (fun a g => g = .char a ∨ g = .char a.toUpper) w.toList t

/-- A character that is no capital, and to which no other character than its capital folds. -/
def isSmall (a : Char) : Bool :=
  foldCase a == a && a != 's' && a != 'k'

/-- A glyph without its letter case. -/
def foldGlyph : Glyph → Glyph
  | .char c => .char (foldCase c)
  | .stray b => .stray b

/-- A text matches a word when it is the same without letter case. -/
theorem matchesWord_iff {w : String} {t : Text} :
    t.matchesWord w ↔ t.map foldGlyph = ofString w := by
  rw [matchesWord, beq_iff_eq]
  refine Eq.congr_left (List.map_congr_left fun g _ => ?_)
  cases g <;> rfl

/-! ### Capitals -/

/-- The small letters come 32 after the capitals. -/
theorem toNat_toLower (c : Char) :
    c.toLower.toNat = if 65 ≤ c.toNat ∧ c.toNat ≤ 90 then c.toNat + 32 else c.toNat := by
  unfold Char.toLower
  simp only [ge_iff_le, UInt32.le_iff_toNat_le, Char.toNat]
  split
  · next h =>
    have hrange : 65 ≤ c.val.toNat ∧ c.val.toNat ≤ 90 := h
    rw [if_pos hrange]
    show (c.val + 32).toNat = _
    rw [UInt32.toNat_add]
    show (c.val.toNat + 32) % 2 ^ 32 = _
    omega
  · next h => exact (if_neg h).symm

theorem toNat_toUpper (c : Char) :
    c.toUpper.toNat = if 97 ≤ c.toNat ∧ c.toNat ≤ 122 then c.toNat - 32 else c.toNat := by
  unfold Char.toUpper
  simp only [UInt32.le_iff_toNat_le, Char.toNat]
  split
  · next h =>
    have hrange : 97 ≤ c.val.toNat ∧ c.val.toNat ≤ 122 := h
    have hstep : ('A'.val - 'a'.val).toNat = 4294967264 := rfl
    rw [if_pos hrange]
    show (c.val + ('A'.val - 'a'.val)).toNat = _
    rw [UInt32.toNat_add, hstep]
    omega
  · next h => exact (if_neg h).symm

/-- The characters with the same small letter are the letter and its capital. -/
theorem toLower_eq_iff {a c : Char} (ha : a.toLower = a) :
    c.toLower = a ↔ c = a ∨ c = a.toUpper := by
  have ha' := toNat_toLower a
  rw [ha] at ha'
  simp only [← Char.toNat_inj, toNat_toLower, toNat_toUpper]
  split at ha'
  · omega
  · split <;> split <;> omega

theorem toLower_eq_of_isSmall {a : Char} (ha : isSmall a) : a.toLower = a := by
  simp only [isSmall, Bool.and_eq_true, beq_iff_eq, bne_iff_ne] at ha
  obtain ⟨⟨hfold, hs⟩, hk⟩ := ha
  unfold foldCase at hfold
  split at hfold
  · exact absurd hfold.symm hs
  · split at hfold
    · exact absurd hfold.symm hk
    · exact hfold

/-- To a small letter folds the letter itself, and its capital. -/
theorem foldCase_eq_iff {a c : Char} (ha : isSmall a) : foldCase c = a ↔ c = a ∨ c = a.toUpper := by
  rw [← toLower_eq_iff (toLower_eq_of_isSmall ha)]
  simp only [isSmall, Bool.and_eq_true, beq_iff_eq, bne_iff_ne] at ha
  obtain ⟨⟨hfold, hs⟩, hk⟩ := ha
  -- The two letters that are no ASCII ones are not small, and the letters to which they fold are
  -- excluded.
  rw [foldCase]
  split
  · next hlong =>
    rw [beq_iff_eq.mp hlong]
    refine iff_of_false (Ne.symm hs) fun heq => ?_
    rw [← heq] at hfold
    exact absurd hfold (by decide)
  · split
    · next hkelvin =>
      rw [beq_iff_eq.mp hkelvin]
      refine iff_of_false (Ne.symm hk) fun heq => ?_
      rw [← heq] at hfold
      exact absurd hfold (by decide)
    · exact Iff.rfl

/-! ### Words -/

/-- The glyphs that fold to a small letter are the letter and its capital. -/
theorem foldGlyph_eq_iff {a : Char} {g : Glyph} (ha : isSmall a) :
    foldGlyph g = .char a ↔ g = .char a ∨ g = .char a.toUpper := by
  cases g with
  | char c => simp only [foldGlyph, Glyph.char.injEq, foldCase_eq_iff ha]
  | stray b => simp [foldGlyph]

/-- A text counts as a word of small letters when it is the word in any letter case. -/
theorem matchesWord_iff_anyCase {w : String} (hw : ∀ a ∈ w.toList, isSmall a) {t : Text} :
    t.matchesWord w ↔ AnyCase w t := by
  rw [matchesWord_iff, AnyCase, ofString]
  generalize w.toList = as at hw
  induction as generalizing t with
  | nil => simp
  | cons a as ih =>
    rw [List.forall_mem_cons] at hw
    cases t with
    | nil => simp
    | cons g t => simp [foldGlyph_eq_iff hw.1, ih hw.2]

/-- The glyphs of a word in any letter case are letters of the word, up to letter case. -/
theorem mem_of_matchesWord {w : String} {t : Text} (h : t.matchesWord w) {g : Glyph} (hg : g ∈ t) :
    foldGlyph g ∈ ofString w := by
  rw [← matchesWord_iff.mp h]
  exact List.mem_map_of_mem hg

/-- Each letter of a word is in the text, up to letter case. -/
theorem exists_mem_of_matchesWord {w : String} {t : Text} (h : t.matchesWord w) {a : Char}
    (ha : a ∈ w.toList) : ∃ g ∈ t, foldGlyph g = .char a := by
  rw [← List.mem_map, matchesWord_iff.mp h]
  exact List.mem_map_of_mem ha

end Allotment.Text
