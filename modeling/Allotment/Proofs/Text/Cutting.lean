import Mathlib.Data.List.Basic
import Mathlib.Data.List.TakeWhile
import Allotment.Text.Blank

namespace Allotment.Text

/-!
# Trimming and cutting texts

Trimming takes the blanks off both ends of a text, and cutting takes it apart at the first
occurrence of a separator.  Each is described by what was put together: a text that starts and ends
without a blank comes back from all blanks around it, and a separator comes back from all texts
before it that have none of its first glyph.

* `Blanks`, `Tight`, `Padded` — blanks, texts without blanks at their ends, and texts with blanks
  around them;
* `trim_eq_iff` — what trimming gives;
* `eq_of_cutAt`, `cutAt_append`, `cutAt_eq_none` — what cutting gives.
-/

variable {t u : Text}

/-! ### Blanks around a text -/

/-- A text of blanks only, or of nothing. -/
def Blanks (t : Text) : Prop :=
  ∀ g ∈ t, isBlankGlyph g

/-- A text that neither starts nor ends with a blank. -/
structure Tight (t : Text) : Prop where
  front : ∀ g ∈ t.head?, isBlankGlyph g = false
  back : ∀ g ∈ t.getLast?, isBlankGlyph g = false

/-- The text `t` is `u` with blanks around it. -/
def Padded (u t : Text) : Prop :=
  ∃ front back, Blanks front ∧ Blanks back ∧ t = front ++ u ++ back

theorem blanks_nil : Blanks [] := by
  intro g hg
  cases hg

theorem padded_self (t : Text) : Padded t t :=
  ⟨[], [], blanks_nil, blanks_nil, (List.append_nil t).symm⟩

/-- A text without any blank is tight. -/
theorem tight_of_forall (h : ∀ g ∈ t, isBlankGlyph g = false) : Tight t :=
  ⟨fun g hg => h g (List.mem_of_mem_head? hg), fun g hg => h g (List.mem_of_getLast? hg)⟩

/-- The blanks in front are left out, and nothing else. -/
theorem trimFront_append {front : Text} (hfront : Blanks front)
    (hu : ∀ g ∈ u.head?, isBlankGlyph g = false) : trimFront (front ++ u) = u := by
  rw [trimFront, List.dropWhile_append_of_pos hfront]
  cases u with
  | nil => rfl
  | cons g u => exact List.dropWhile_cons_of_neg (by rw [hu g rfl]; exact Bool.false_ne_true)

/-- The blanks at the back are left out, and nothing else. -/
theorem trimBack_append {back : Text} (hback : Blanks back)
    (hu : ∀ g ∈ u.getLast?, isBlankGlyph g = false) : trimBack (u ++ back) = u := by
  have hreverse : trimFront (back.reverse ++ u.reverse) = u.reverse := by
    refine trimFront_append (fun g hg => hback g (List.mem_reverse.mp hg)) ?_
    rw [List.head?_reverse]
    exact hu
  rw [trimBack, List.reverse_append]
  show (trimFront _).reverse = u
  rw [hreverse, List.reverse_reverse]

/-- Only blanks are left out in front, and all of them. -/
theorem exists_trimFront (t : Text) :
    (∃ front, Blanks front ∧ t = front ++ trimFront t) ∧
      ∀ g ∈ (trimFront t).head?, isBlankGlyph g = false := by
  refine ⟨⟨t.takeWhile isBlankGlyph, fun g hg => (List.mem_takeWhile_imp hg), ?_⟩, fun g hg => ?_⟩
  · exact List.takeWhile_append_dropWhile.symm
  · have hhead := List.head?_dropWhile_not isBlankGlyph t
    rw [trimFront, Option.mem_def] at hg
    rw [hg] at hhead
    exact hhead

/-- Only blanks are left out at the back, and all of them. -/
theorem exists_trimBack (t : Text) :
    (∃ back, Blanks back ∧ t = trimBack t ++ back) ∧
      ∀ g ∈ (trimBack t).getLast?, isBlankGlyph g = false := by
  obtain ⟨⟨back, hback, hsplit⟩, hhead⟩ := exists_trimFront t.reverse
  have htrim : trimBack t = (trimFront t.reverse).reverse := rfl
  refine ⟨⟨back.reverse, fun g hg => hback g (List.mem_reverse.mp hg), ?_⟩, ?_⟩
  · rw [htrim, ← List.reverse_append, ← hsplit, List.reverse_reverse]
  · rw [htrim, List.getLast?_reverse]
    exact hhead

/-- Trimming gives the tight text around which there are only blanks. -/
theorem trim_eq_iff : t.trim = u ↔ Tight u ∧ Padded u t := by
  constructor
  · rintro rfl
    obtain ⟨⟨front, hfront, hsplit⟩, hhead⟩ := exists_trimFront t
    obtain ⟨⟨back, hback, hsplit'⟩, hlast⟩ := exists_trimBack (trimFront t)
    refine ⟨⟨fun g hg => hhead g ?_, hlast⟩, front, back, hfront, hback, ?_⟩
    · -- What was not taken off the back starts as before.
      rw [hsplit', List.head?_append]
      exact Option.mem_def.mpr (by rw [show (trimFront t).trimBack.head? = some g from hg]; rfl)
    · rw [List.append_assoc]
      show t = front ++ ((trimFront t).trimBack ++ back)
      rw [← hsplit', ← hsplit]
  · rintro ⟨htight, front, back, hfront, hback, rfl⟩
    rw [trim, List.append_assoc]
    by_cases hu : u = []
    · subst hu
      have hall : Blanks (front ++ back) := fun g hg => (List.mem_append.mp hg).elim (hfront g)
        (hback g)
      have hnil : trimFront (front ++ ([] ++ back)) = [] := List.dropWhile_eq_nil_iff.mpr hall
      rw [hnil]
      rfl
    · have hhead : ∀ g ∈ (u ++ back).head?, isBlankGlyph g = false := by
        rw [List.head?_append_of_ne_nil _ hu]
        exact htight.front
      rw [trimFront_append hfront hhead, trimBack_append hback htight.back]

/-- No blanks are left around a trimmed text. -/
theorem tight_trim (t : Text) : Tight t.trim :=
  (trim_eq_iff.mp rfl).1

/-- Only blanks were around it. -/
theorem padded_trim (t : Text) : Padded t.trim t :=
  (trim_eq_iff.mp rfl).2

/-- Blanks around a text without such blanks are left out. -/
theorem trim_eq_of_padded (hu : Tight u) (h : Padded u t) : t.trim = u :=
  trim_eq_iff.mpr ⟨hu, h⟩

/-- Trimming a text that does not start with a blank takes blanks off its back only. -/
theorem eq_trim_append (ht : ∀ g ∈ t.head?, isBlankGlyph g = false) :
    ∃ back, Blanks back ∧ t = t.trim ++ back := by
  have hfront : trimFront t = t := trimFront_append blanks_nil ht
  obtain ⟨⟨back, hback, hsplit⟩, -⟩ := exists_trimBack t
  refine ⟨back, hback, ?_⟩
  rw [trim, hfront]
  exact hsplit

/-- Trimming a text that does not end with a blank takes blanks off its front only. -/
theorem eq_append_trim (ht : ∀ g ∈ t.getLast?, isBlankGlyph g = false) :
    ∃ front, Blanks front ∧ t = front ++ t.trim := by
  obtain ⟨⟨front, hfront, hsplit⟩, -⟩ := exists_trimFront t
  refine ⟨front, hfront, ?_⟩
  have hlast : ∀ g ∈ (trimFront t).getLast?, isBlankGlyph g = false := by
    intro g hg
    refine ht g ?_
    rw [hsplit, List.getLast?_append, Option.mem_def.mp hg]
    rfl
  have hback : trimBack (trimFront t) = trimFront t := by
    have happend := trimBack_append blanks_nil hlast
    rwa [List.append_nil] at happend
  rw [trim, hback]
  exact hsplit

/-- The glyphs of a padded text are those of the text, and blanks. -/
theorem Padded.mem (h : Padded u t) {g : Glyph} (hg : g ∈ t) : g ∈ u ∨ isBlankGlyph g := by
  obtain ⟨front, back, hfront, hback, rfl⟩ := h
  rcases List.mem_append.mp hg with hg | hg
  · rcases List.mem_append.mp hg with hg | hg
    · exact Or.inr (hfront g hg)
    · exact Or.inl hg
  · exact Or.inr (hback g hg)

/-! ### Separators -/

/-- The parts around a separator make up the text with the separator between them. -/
theorem eq_of_cutAt {separator front back : Text} (h : cutAt separator t = some (front, back)) :
    t = front ++ separator ++ back := by
  induction t generalizing front with
  | nil =>
    unfold cutAt at h
    split at h
    · next hempty =>
      cases h
      rw [List.isEmpty_iff.mp hempty]
      rfl
    · cases h
  | cons g t ih =>
    unfold cutAt at h
    split at h
    · next hprefix =>
      -- The text starts with the separator.
      obtain ⟨rest, hrest⟩ := List.isPrefixOf_iff_prefix.mp hprefix
      cases h
      rw [← hrest, List.drop_left]
      rfl
    · -- The separator is found further on.
      obtain ⟨⟨front', back'⟩, hcut, hparts⟩ := Option.map_eq_some_iff.mp h
      cases hparts
      rw [ih hcut]
      rfl

variable {x : Glyph} {separator : Text}

/-- A text without the first glyph of a separator is not cut. -/
theorem cutAt_eq_none (h : x ∉ t) : cutAt (x :: separator) t = none := by
  induction t with
  | nil => rfl
  | cons g t ih =>
    have hg : x ≠ g := fun heq => h (heq ▸ List.mem_cons_self)
    have hprefix : (x :: separator).isPrefixOf (g :: t) = false := by
      simp [List.isPrefixOf, hg]
    rw [cutAt, hprefix, ih fun hmem => h (List.mem_cons_of_mem g hmem)]
    rfl

/-- A text is cut at a separator before which there is no glyph like its first one. -/
theorem cutAt_append (back : Text) (h : x ∉ t) :
    cutAt (x :: separator) (t ++ (x :: separator) ++ back) = some (t, back) := by
  induction t with
  | nil =>
    have hprefix : (x :: separator).isPrefixOf (x :: separator ++ back) :=
      List.isPrefixOf_iff_prefix.mpr (List.prefix_append _ _)
    show (if (x :: separator).isPrefixOf (x :: separator ++ back) then
      some ([], (x :: separator ++ back).drop (x :: separator).length) else _) = _
    rw [if_pos hprefix, List.drop_left]
  | cons g t ih =>
    -- The separator does not start before its first glyph does.
    have hg : x ≠ g := fun heq => h (heq ▸ List.mem_cons_self)
    have hprefix : (x :: separator).isPrefixOf (g :: (t ++ (x :: separator) ++ back)) = false := by
      simp [List.isPrefixOf, hg]
    show cutAt _ (g :: (t ++ (x :: separator) ++ back)) = _
    rw [cutAt, hprefix, ih fun hmem => h (List.mem_cons_of_mem g hmem)]
    rfl

end Allotment.Text
