import Allotment.Range.Parser
import Allotment.Proofs.Text.Cutting
import Allotment.Proofs.Text.Decimal
import Allotment.Proofs.Text.Words

namespace Allotment.Range

/-!
# Interval notation

`Notated t i` says that the text `t` stands for the interval `i`: two ends between brackets, a lone
number, or two numbers around a hyphen.  Blanks may stand around each end and around the hyphen.
The reader works from first occurrences: of one separator, then of the other, and of a hyphen after
the first glyph.  It comes to the same, because no end holds a blank, a separator or a dot, and a
number holds a hyphen at its front only.

* `Notated` — interval notation;
* `parseLower_eq_ok_iff`, `parseUpper_eq_ok_iff` — the ends that are read;
* `splitEnds_append`, `exists_separator` — the separator at which a text is taken apart;
* `parseInt_eq_ok_iff` — what is read is what is notated and valid.
-/

open Decimal (Signed)
open Text (Blanks Tight Padded AnyCase)

/-! ### Ends -/

/-- A text is one of some words, in any letter case. -/
def Spelled (words : List String) (t : Text) : Prop :=
  ∃ w ∈ words, AnyCase w t

/-- An end beside a bracket, and its cut: a number, which belongs to the interval when the bracket
    is a square one, or a spelling of infinity beside a round bracket. -/
inductive End (infinities : List String) (beyond : Cut Int64) (cutOf : Int64 → Bool → Cut Int64) :
    Bool → Text → Cut Int64 → Prop where
  | number {closed : Bool} {t : Text} {v : Int64} (h : Signed t v.toInt) :
      End infinities beyond cutOf closed t (cutOf v closed)
  | infinite {t : Text} (h : Spelled infinities t) : End infinities beyond cutOf false t beyond

/-- A lower end beside a bracket, and its cut. -/
abbrev LowerEnd : Bool → Text → Cut Int64 → Prop :=
  End lowerInfinities .bottom Cut.lowerEnd

/-- An upper end beside a bracket, and its cut. -/
abbrev UpperEnd : Bool → Text → Cut Int64 → Prop :=
  End upperInfinities .top Cut.upperEnd

/-- The spellings of infinity are in small letters, and each of them that is not left out has a
    letter that no number has. -/
theorem spelling_letters {w : String} (hw : w ∈ lowerInfinities ∨ w ∈ upperInfinities) :
    (∀ a ∈ w.toList, a ∈ ['-', '+', '∞', 'i', 'n', 'f']) ∧
      (w = "" ∨ '∞' ∈ w.toList ∨ 'f' ∈ w.toList) := by
  simp only [lowerInfinities, upperInfinities, List.mem_cons, List.not_mem_nil, or_false] at hw
  rcases hw with (rfl | rfl | rfl) | rfl | rfl | rfl | rfl | rfl
  all_goals simp

/-- All letters of the infinities are small ones. -/
theorem isSmall_of_letter : ∀ a ∈ ['-', '+', '∞', 'i', 'n', 'f'], Text.isSmall a := by
  simp only [List.forall_mem_cons, List.not_mem_nil, false_implies, implies_true, and_true]
  decide

section Infinities

variable {words : List String} (hwords : ∀ w ∈ words, w ∈ lowerInfinities ∨ w ∈ upperInfinities)
    {t : Text}

include hwords

/-- A text is read as infinite when it is spelled so, in small or capital letters. -/
theorem isSpelling_iff : isSpelling words t ↔ Spelled words t := by
  rw [isSpelling, List.any_eq_true]
  refine exists_congr fun w => and_congr_right fun hw => ?_
  exact Text.matchesWord_iff_anyCase fun a ha => isSmall_of_letter a
    ((spelling_letters (hwords w hw)).1 a ha)

/-- A spelling of infinity has only letters of infinity, as they are or as capitals. -/
theorem mem_of_spelled (h : Spelled words t) {g : Glyph} (hg : g ∈ t) :
    ∃ a ∈ ['-', '+', '∞', 'i', 'n', 'f'], g = .char a ∨ g = .char a.toUpper := by
  obtain ⟨w, hw, hmatches⟩ := List.any_eq_true.mp ((isSpelling_iff hwords).mpr h)
  obtain ⟨a, ha, hfold⟩ := List.mem_map.mp (Text.mem_of_matchesWord hmatches hg)
  have ha' := (spelling_letters (hwords w hw)).1 a ha
  exact ⟨a, ha', (Text.foldGlyph_eq_iff (isSmall_of_letter a ha')).mp hfold.symm⟩

/-- No number is a spelling of infinity. -/
theorem not_isSpelling_of_signed {n : Int} (h : Signed t n) : isSpelling words t = false := by
  rw [Bool.eq_false_iff]
  intro hspelling
  obtain ⟨w, hw, hmatches⟩ := List.any_eq_true.mp hspelling
  -- A letter of infinity is in the text, and it is neither a sign nor a digit.
  have hletter : ∀ a : Char, Text.isSmall a →
      (∀ c, c = a ∨ c = a.toUpper → ¬ (c = '+' ∨ c = '-' ∨ c.isDigit)) → a ∉ w.toList := by
    intro a hsmall hforeign ha
    obtain ⟨g, hg, hfold⟩ := Text.exists_mem_of_matchesWord hmatches ha
    obtain ⟨c, rfl, hc⟩ := h.mem hg
    refine hforeign c ?_ hc
    simpa using (Text.foldGlyph_eq_iff hsmall).mp hfold
  rcases (spelling_letters (hwords w hw)).2 with rfl | hinfinity | hf
  · exact h.ne_nil (List.map_eq_nil_iff.mp (Text.matchesWord_iff.mp hmatches))
  · refine hletter '∞' (by decide) ?_ hinfinity
    rintro c (rfl | rfl) <;> decide
  · refine hletter 'f' (by decide) ?_ hf
    rintro c (rfl | rfl) <;> decide

/-- What reads a spelling of infinity beside a round bracket, and numbers beside both, reads the
    ends. -/
theorem end_of_reader {beyond c : Cut Int64} {cutOf : Int64 → Bool → Cut Int64} {closed : Bool}
    {ε : Type} {answer : Except ε (Cut Int64)}
    (hinfinite : isSpelling words t → ∃ e, answer = if closed then .error e else .ok beyond)
    (hnumber : isSpelling words t = false → ∀ v, Decimal.parseInt t = .ok v →
      answer = .ok (cutOf v closed))
    (hmalformed : isSpelling words t = false → ∀ e, Decimal.parseInt t = .error e →
      ∃ e, answer = .error e) :
    answer = .ok c ↔ End words beyond cutOf closed t c := by
  constructor
  · rintro rfl
    -- A text is first compared with the infinities, and read as a number only if it is none of
    -- them.
    cases hspelling : isSpelling words t with
    | true =>
      obtain ⟨e, he⟩ := hinfinite hspelling
      cases closed with
      | true => cases he
      | false =>
        cases he
        exact .infinite ((isSpelling_iff hwords).mp hspelling)
    | false =>
      cases hv : Decimal.parseInt t with
      | ok v =>
        cases hnumber hspelling v hv
        exact .number (Decimal.parseInt_eq_ok_iff.mp hv)
      | error e =>
        obtain ⟨e, he⟩ := hmalformed hspelling e hv
        cases he
  · intro h
    cases h with
    | number h =>
      -- No number is spelled like an infinity, so this comes to the reading of numbers.
      exact hnumber (not_isSpelling_of_signed hwords h) _ (Decimal.parseInt_eq_ok_iff.mpr h)
    | infinite h =>
      obtain ⟨e, he⟩ := hinfinite ((isSpelling_iff hwords).mpr h)
      exact he

end Infinities

/-- The lower ends that can be read are those of the notation. -/
theorem parseLower_eq_ok_iff {t part : Text} {closed : Bool} {c : Cut Int64} :
    parseLower Decimal.parseInt t part closed = .ok c ↔ LowerEnd closed part c := by
  refine end_of_reader (fun _ => Or.inl) (fun h => ⟨.closedBelow t, ?_⟩) (fun h v hv => ?_)
    (fun h e he => ?_)
  · simp [parseLower, h]
  · simp [parseLower, h, hv]
  · simp [parseLower, h, he]

/-- The upper ends that can be read are those of the notation. -/
theorem parseUpper_eq_ok_iff {t part : Text} {closed : Bool} {c : Cut Int64} :
    parseUpper Decimal.parseInt t part closed = .ok c ↔ UpperEnd closed part c := by
  refine end_of_reader (fun _ => Or.inr) (fun h => ⟨.closedAbove t, ?_⟩) (fun h v hv => ?_)
    (fun h e he => ?_)
  · simp [parseUpper, h]
  · simp [parseUpper, h, hv]
  · simp [parseUpper, h, he]

/-! ### The glyphs of an end -/

/-- A glyph that is neither a blank nor part of a separator. -/
structure IsInner (g : Glyph) : Prop where
  notBlank : Text.isBlankGlyph g = false
  notDot : g ≠ .char '.'
  notLeader : g ≠ .char '‥'

/-- A digit can stand in an end. -/
theorem isInner_of_isDigit {c : Char} (hc : c.isDigit) : IsInner (.char c) := by
  have hrange : 48 ≤ c.toNat ∧ c.toNat ≤ 57 := by
    rw [Decimal.isDigit_iff] at hc
    exact hc
  refine ⟨?_, ?_, ?_⟩
  · simp only [Text.isBlankGlyph, Text.isBlank]
    simp
    omega
  · rintro heq
    cases heq
    exact absurd hc (by decide)
  · rintro heq
    cases heq
    exact absurd hc (by decide)

/-- All glyphs of a number can stand in an end. -/
theorem isInner_of_signed {t : Text} {n : Int} (h : Signed t n) {g : Glyph} (hg : g ∈ t) :
    IsInner g := by
  obtain ⟨c, rfl, rfl | rfl | hc⟩ := h.mem hg
  · exact ⟨by decide, by decide, by decide⟩
  · exact ⟨by decide, by decide, by decide⟩
  · exact isInner_of_isDigit hc

/-- Nothing else stands in an end. -/
theorem End.isInner {words : List String}
    (hwords : ∀ w ∈ words, w ∈ lowerInfinities ∨ w ∈ upperInfinities) {beyond : Cut Int64}
    {cutOf : Int64 → Bool → Cut Int64} {closed : Bool} {t : Text} {c : Cut Int64}
    (h : End words beyond cutOf closed t c) : ∀ g ∈ t, IsInner g := by
  intro g hg
  cases h with
  | number h => exact isInner_of_signed h hg
  | infinite h =>
    obtain ⟨a, ha, heq⟩ := mem_of_spelled hwords h hg
    simp only [List.mem_cons, List.not_mem_nil, or_false] at ha
    rcases ha with rfl | rfl | rfl | rfl | rfl | rfl
    all_goals rcases heq with rfl | rfl
    all_goals exact ⟨by decide, by decide, by decide⟩

/-- Blanks around an end bring no separator into it. -/
theorem not_mem_of_padded {t u : Text} (hu : ∀ g ∈ u, IsInner g) (h : Padded u t) :
    .char '.' ∉ t ∧ .char '‥' ∉ t := by
  constructor
  · intro hmem
    rcases h.mem hmem with hg | hg
    · exact (hu _ hg).notDot rfl
    · exact absurd hg (by decide)
  · intro hmem
    rcases h.mem hmem with hg | hg
    · exact (hu _ hg).notLeader rfl
    · exact absurd hg (by decide)

/-- There are no blanks around an end. -/
theorem tight_of_isInner {t : Text} (h : ∀ g ∈ t, IsInner g) : Tight t :=
  Text.tight_of_forall fun g hg => (h g hg).notBlank

/-! ### The separator -/

/-- What may stand between two ends. -/
def separators : List Text :=
  [Text.ofString "‥", Text.ofString ".."]

/-- A text that was split at a separator has it between the parts. -/
theorem exists_separator {body front back : Text} (h : splitEnds body = some (front, back)) :
    ∃ separator ∈ separators, body = front ++ separator ++ back := by
  unfold splitEnds at h
  split at h
  · next hcut =>
    cases h
    exact ⟨_, by simp [separators], Text.eq_of_cutAt hcut⟩
  · exact ⟨_, by simp [separators], Text.eq_of_cutAt h⟩

/-- Ends without separators and dots are taken apart at the separator between them.  The second
    separator is sought only where the first one does not occur, not even in the upper end. -/
theorem splitEnds_append {front back separator : Text} (hseparator : separator ∈ separators)
    (hfront : .char '.' ∉ front ∧ .char '‥' ∉ front) (hback : .char '‥' ∉ back) :
    splitEnds (front ++ separator ++ back) = some (front, back) := by
  simp only [separators, List.mem_cons, List.not_mem_nil, or_false] at hseparator
  unfold splitEnds
  rcases hseparator with rfl | rfl
  · have hcut : Text.cutAt (Text.ofString "‥") (front ++ Text.ofString "‥" ++ back) =
        some (front, back) :=
      Text.cutAt_append back hfront.2
    rw [hcut]
  · -- Two dots are only looked for when there is no leader, so there must be none in either part.
    have hnone : Text.cutAt (Text.ofString "‥") (front ++ Text.ofString ".." ++ back) = none := by
      refine Text.cutAt_eq_none ?_
      simp only [List.mem_append, not_or]
      exact ⟨⟨hfront.2, by decide⟩, hback⟩
    have hcut : Text.cutAt (Text.ofString "..") (front ++ Text.ofString ".." ++ back) =
        some (front, back) :=
      Text.cutAt_append back hfront.1
    rw [hnone, hcut]

/-! ### The notation -/

/-- The bracket at the front: a square one before an end that belongs to the interval. -/
def opening (closed : Bool) : Glyph :=
  .char (if closed then '[' else '(')

/-- The bracket at the back. -/
def closing (closed : Bool) : Glyph :=
  .char (if closed then ']' else ')')

/-- The text of a range, and its interval. -/
inductive Notated : Text → Interval Int64 → Prop where
  /-- Two ends between brackets, with blanks around each of them. -/
  | bracketed {closedLower closedUpper : Bool} {lowerPart upperPart front back separator : Text}
      {lower upper : Cut Int64}
      (hlower : LowerEnd closedLower lowerPart lower) (hfront : Padded lowerPart front)
      (hupper : UpperEnd closedUpper upperPart upper) (hback : Padded upperPart back)
      (hseparator : separator ∈ separators) :
      Notated (opening closedLower :: (front ++ separator ++ back ++ [closing closedUpper]))
        ⟨lower, upper⟩
  /-- A lone number. -/
  | lone {t : Text} {v : Int64} (h : Signed t v.toInt) : Notated t (.singleton v)
  /-- Two numbers in order around a hyphen, with blanks around the hyphen. -/
  | pair {s t front back : Text} {a b : Int64} (ha : Signed s a.toInt) (hb : Signed t b.toInt)
      (hle : a.toInt ≤ b.toInt) (hfront : Blanks front) (hback : Blanks back) :
      Notated (s ++ front ++ .char '-' :: (back ++ t)) (.closed a b)

/-- The check at the end passes an interval or refuses it. -/
theorem checked_eq_ok_iff {α ε : Type} {accepts : Interval α → Bool} {t : Text} {i j : Interval α} :
    (checked accepts t i : Except (ParseError ε) _) = .ok j ↔ accepts i ∧ i = j := by
  unfold checked
  split
  · next h => simp [h]
  · next h => simp [h]

section Reading

variable {accepts : Interval Int64 → Bool} {t : Text} {i : Interval Int64}

/-- A bracketed text is read when it ends with a bracket and has two ends around a separator. -/
theorem parseBracketed_eq_ok_iff {closedLower : Bool} :
    parseBracketed accepts Decimal.parseInt t closedLower = .ok i ↔
      ∃ closedUpper front back, t.getLast? = some (closing closedUpper) ∧
        splitEnds t.tail.dropLast = some (front, back) ∧ LowerEnd closedLower front.trim i.lower ∧
        UpperEnd closedUpper back.trim i.upper ∧ accepts i := by
  unfold parseBracketed
  constructor
  · intro h
    simp only at h
    split at h
    · cases h
    next hbracket =>
    -- The last glyph is one of the two closing brackets, and which one says whether the end is
    -- kept.
    have hlast : t.getLast? = some (closing (t.getLast? == some (.char ']'))) := by
      by_cases hsquare : t.getLast? = some (.char ']')
      · rw [hsquare]
        rfl
      · have hround : t.getLast? = some (.char ')') := by simpa [hsquare] using hbracket
        rw [hround]
        rfl
    split at h
    · cases h
    · next front back hsplit =>
      simp only [Answer.bind_eq_ok, parseLower_eq_ok_iff, parseUpper_eq_ok_iff, checked_eq_ok_iff]
        at h
      obtain ⟨lower, hlower, upper, hupper, haccepts, rfl⟩ := h
      exact ⟨_, front, back, hlast, hsplit, hlower, hupper, haccepts⟩
  · rintro ⟨closedUpper, front, back, hlast, hsplit, hlower, hupper, haccepts⟩
    have hclosed : (some (closing closedUpper) == some (.char ']')) = closedUpper := by
      cases closedUpper <;> decide
    have hbracket : (!closedUpper && some (closing closedUpper) != some (.char ')')) = false := by
      cases closedUpper <;> decide
    simp only [hlast, hclosed, hbracket, hsplit]
    show (parseLower _ t front.trim closedLower >>= fun lower =>
        parseUpper _ t back.trim closedUpper >>= fun upper =>
      checked accepts t ⟨lower, upper⟩) = _
    simp only [Answer.bind_eq_ok, parseLower_eq_ok_iff, parseUpper_eq_ok_iff, checked_eq_ok_iff]
    exact ⟨i.lower, hlower, i.upper, hupper, haccepts, rfl⟩

/-- A text without brackets is read as one number when it has no hyphen after its first glyph, and
    as two otherwise. -/
theorem parseShorthand_eq_ok_iff :
    parseShorthand accepts Decimal.parseInt t = .ok i ↔
      (Text.cutAt [.char '-'] t.tail = none ∧ ∃ v : Int64, Signed t v.toInt ∧ .singleton v = i) ∨
      ∃ front back, Text.cutAt [.char '-'] t.tail = some (front, back) ∧
        ∃ a : Int64, Signed (Text.trim (t.take 1 ++ front)) a.toInt ∧
          ∃ b : Int64, Signed back.trim b.toInt ∧ accepts (.closed a b) ∧ .closed a b = i := by
  unfold parseShorthand
  cases hcut : Text.cutAt [.char '-'] t.tail with
  | none =>
    simp only [← Decimal.parseInt_eq_ok_iff]
    cases hv : Decimal.parseInt t with
    | ok v => simp
    | error e => simp
  | some parts =>
    obtain ⟨front, back⟩ := parts
    simp only [Answer.bind_eq_ok, Answer.mapError_eq_ok, Decimal.parseInt_eq_ok_iff,
      checked_eq_ok_iff]
    simp

/-- A text between brackets is what is left without them, with the brackets around it: it has two of
    them, since none is both an opening and a closing one. -/
theorem eq_of_brackets {closedLower closedUpper : Bool}
    (hhead : t.head? = some (opening closedLower))
    (hlast : t.getLast? = some (closing closedUpper)) :
    t = opening closedLower :: (t.tail.dropLast ++ [closing closedUpper]) := by
  cases t with
  | nil => cases hhead
  | cons g u =>
    cases hhead
    cases u with
    | nil =>
      have hne : opening closedLower ≠ closing closedUpper := by
        cases closedLower <;> cases closedUpper <;> decide
      exact absurd (Option.some.inj hlast) hne
    | cons h u =>
      rw [List.getLast?_cons_cons] at hlast
      rw [List.tail_cons, List.dropLast_append_getLast? _ hlast]

/-- What is read between brackets is in the notation. -/
theorem notated_of_parseBracketed {closedLower : Bool}
    (hhead : t.head? = some (opening closedLower))
    (h : parseBracketed accepts Decimal.parseInt t closedLower = .ok i) :
    accepts i ∧ Notated t i := by
  obtain ⟨closedUpper, front, back, hlast, hsplit, hlower, hupper, haccepts⟩ :=
    parseBracketed_eq_ok_iff.mp h
  obtain ⟨separator, hseparator, hbody⟩ := exists_separator hsplit
  refine ⟨haccepts, ?_⟩
  rw [eq_of_brackets hhead hlast, hbody]
  exact .bracketed hlower (Text.padded_trim front) hupper (Text.padded_trim back) hseparator

/-- Around two numbers with a hyphen between them blanks are at the hyphen only, since the text has
    none at its ends. -/
theorem notated_of_parseShorthand (ht : Tight t)
    (h : parseShorthand accepts Decimal.parseInt t = .ok i) (hone : ∀ v, accepts (.singleton v))
    (hle : ∀ a b, accepts (.closed a b) → a.toInt ≤ b.toInt) : accepts i ∧ Notated t i := by
  rcases parseShorthand_eq_ok_iff.mp h with
    ⟨-, v, hv, rfl⟩ | ⟨front, back, hcut, a, ha, b, hb, haccepts, rfl⟩
  · exact ⟨hone v, .lone hv⟩
  · refine ⟨haccepts, ?_⟩
    cases t with
    | nil => cases hcut
    | cons g u =>
      -- The first glyph may be a sign, so the hyphen is looked for after it.
      have hu : u = front ++ [.char '-'] ++ back := Text.eq_of_cutAt hcut
      subst hu
      have hlast : ∀ x ∈ back.getLast?, Text.isBlankGlyph x = false := by
        intro x hx
        refine ht.back x ?_
        rw [List.getLast?_cons, List.getLast?_append, Option.mem_def.mp hx]
        rfl
      -- The whole text has no blanks around it, so only those around the hyphen are left out.
      obtain ⟨blanks, hblanks, hfirst⟩ := Text.eq_trim_append (t := g :: front) ht.front
      obtain ⟨blanks', hblanks', hsecond⟩ := Text.eq_append_trim hlast
      have htext : g :: (front ++ [.char '-'] ++ back) =
          Text.trim (g :: front) ++ blanks ++ .char '-' :: (blanks' ++ back.trim) := by
        rw [← hfirst, ← hsecond]
        simp
      rw [htext]
      exact .pair ha hb (hle a b haccepts) hblanks hblanks'

/-- Behind the first glyph of a number there are digits, and no hyphen. -/
theorem not_mem_tail_of_signed {n : Int} {g : Glyph} {u : Text} (h : Signed (g :: u) n) :
    .char '-' ∉ u := by
  obtain ⟨g', u', heq, -, hdigits⟩ := h.exists_cons
  cases heq
  intro hmem
  obtain ⟨c, hc, heq⟩ := hdigits _ hmem
  cases heq
  exact absurd hc (by decide)

/-- A text that starts like a number is read as a shorthand. -/
theorem parseInterval_of_signed {s u v : Text} {n : Int} (hu : Signed u n) (hs : s.trim = u ++ v) :
    parseInterval accepts Decimal.parseInt s =
      parseShorthand accepts Decimal.parseInt (u ++ v) := by
  obtain ⟨g, u', rfl, -, -⟩ := hu.exists_cons
  obtain ⟨c, rfl, hc⟩ := hu.mem List.mem_cons_self
  unfold parseInterval
  simp only [hs, List.cons_append]
  split
  · next heq => cases heq
  · next heq =>
    cases heq
    exact absurd hc (by decide)
  · next heq =>
    cases heq
    exact absurd hc (by decide)
  · rfl

/-- What is notated is read, unless it is not acceptable. -/
theorem parseInterval_of_notated {s : Text} (hs : s.trim = t) (h : Notated t i)
    (haccepts : accepts i) : parseInterval accepts Decimal.parseInt s = .ok i := by
  cases h with
  | @bracketed closedLower closedUpper lowerPart upperPart front back separator lower upper hlower
      hfront hupper hback hseparator =>
    have hlowerInner := hlower.isInner fun _ => Or.inl
    have hupperInner := hupper.isInner fun _ => Or.inr
    have hread : parseBracketed accepts Decimal.parseInt s.trim closedLower =
        .ok ⟨lower, upper⟩ := by
      refine parseBracketed_eq_ok_iff.mpr ⟨closedUpper, front, back, ?_, ?_, ?_, ?_, haccepts⟩
      · rw [hs, ← List.cons_append, List.getLast?_concat]
      · rw [hs, List.tail_cons, List.dropLast_concat]
        exact splitEnds_append hseparator (not_mem_of_padded hlowerInner hfront)
          (not_mem_of_padded hupperInner hback).2
      · rw [Text.trim_eq_of_padded (tight_of_isInner hlowerInner) hfront]
        exact hlower
      · rw [Text.trim_eq_of_padded (tight_of_isInner hupperInner) hback]
        exact hupper
    rw [← hread, hs]
    unfold parseInterval
    simp only [hs]
    cases closedLower <;> rfl
  | @lone _ v hv =>
    rw [← List.append_nil t] at hs
    rw [parseInterval_of_signed hv hs, List.append_nil]
    -- The hyphen of a negative number is its first glyph, where none is sought.
    refine parseShorthand_eq_ok_iff.mpr (Or.inl ⟨?_, v, hv, rfl⟩)
    obtain ⟨g, u, rfl, -, -⟩ := hv.exists_cons
    exact Text.cutAt_eq_none (not_mem_tail_of_signed hv)
  | @pair u v front back a b ha hb hle hfront hback =>
    have hnotBlank : ∀ {blanks : Text}, Blanks blanks → .char '-' ∉ blanks := by
      intro blanks hblanks hmem
      exact absurd (hblanks _ hmem) (by decide)
    -- So the first hyphen that is found is the one between the numbers, and that of a negative
    -- second number stays in it.
    rw [List.append_assoc] at hs
    rw [parseInterval_of_signed ha hs]
    obtain ⟨g, u', rfl, -, -⟩ := ha.exists_cons
    refine parseShorthand_eq_ok_iff.mpr
      (Or.inr ⟨u' ++ front, back ++ v, ?_, a, ?_, b, ?_, haccepts, rfl⟩)
    · have hbefore : .char '-' ∉ u' ++ front := by
        rw [List.mem_append, not_or]
        exact ⟨not_mem_tail_of_signed ha, hnotBlank hfront⟩
      have hcut : Text.cutAt [.char '-'] (u' ++ front ++ [.char '-'] ++ (back ++ v)) =
          some (u' ++ front, back ++ v) :=
        Text.cutAt_append _ hbefore
      simpa using hcut
    · have hpadded : Padded (g :: u') (g :: (u' ++ front)) :=
        ⟨[], front, Text.blanks_nil, hfront, rfl⟩
      have htrim := Text.trim_eq_of_padded (tight_of_isInner fun _ => isInner_of_signed ha) hpadded
      show Signed (Text.trim (g :: (u' ++ front))) a.toInt
      rw [htrim]
      exact ha
    · have hpadded : Padded v (back ++ v) :=
        ⟨back, [], hback, Text.blanks_nil, (List.append_nil _).symm⟩
      rw [Text.trim_eq_of_padded (tight_of_isInner fun _ => isInner_of_signed hb) hpadded]
      exact hb

/-- A text in interval notation has no blanks at its ends. -/
theorem Notated.tight (h : Notated t i) : Tight t := by
  cases h with
  | @bracketed closedLower closedUpper =>
    constructor
    · intro g hg
      cases hg
      cases closedLower <;> decide
    · rw [← List.cons_append, List.getLast?_concat]
      intro g hg
      cases hg
      cases closedUpper <;> decide
  -- A number has no blanks, neither alone nor at the ends of a pair.
  | lone h => exact tight_of_isInner fun _ => isInner_of_signed h
  | @pair u v front back a b ha hb hle hfront hback =>
    have hu := tight_of_isInner fun _ => isInner_of_signed ha
    have hv := tight_of_isInner fun _ => isInner_of_signed hb
    constructor
    · rw [List.append_assoc, List.head?_append_of_ne_nil _ ha.ne_nil]
      exact hu.front
    · have hsplit : u ++ front ++ .char '-' :: (back ++ v) =
          u ++ front ++ .char '-' :: back ++ v := by simp
      rw [hsplit, List.getLast?_append_of_ne_nil _ hb.ne_nil]
      exact hv.back

end Reading

/-- An interval with both ends is valid unless the ends are crossed. -/
theorem isValid_closed_iff (a b : Int64) :
    (Interval.closed a b).isValid Order.int64 ↔ a.toInt ≤ b.toInt :=
  Int.isLE_compare

/-- A text is read as a range exactly when it is in interval notation, with blanks around it or
    without, and the range is valid. -/
theorem parseInt_eq_ok_iff {s : Text} {r : Range Int64} :
    parseInt s = .ok r ↔
      r.cmp = Order.int64 ∧ r.isValid ∧ ∃ t, Padded t s ∧ Notated t r.toInterval := by
  unfold parseInt parse
  constructor
  · intro h
    cases hread : parseInterval (fun i => i.isValid Order.int64) Decimal.parseInt s with
    | error e =>
      rw [hread] at h
      cases h
    | ok i =>
      rw [hread] at h
      cases h
      -- The text without the blanks around it is the one in the notation.
      suffices hnotated : i.isValid Order.int64 ∧ Notated s.trim i from
        ⟨rfl, hnotated.1, s.trim, Text.padded_trim s, hnotated.2⟩
      have htight := Text.tight_trim s
      unfold parseInterval at hread
      simp only at hread
      -- By the first glyph the text is blank, between brackets of either kind, or a shorthand.
      split at hread
      · cases hread
      · next heq => exact notated_of_parseBracketed (by rw [heq]; rfl) hread
      · next heq => exact notated_of_parseBracketed (by rw [heq]; rfl) hread
      · refine notated_of_parseShorthand htight hread (fun v => ?_) fun a b hvalid =>
          (isValid_closed_iff a b).mp hvalid
        exact (isValid_closed_iff v v).mpr (Int.le_refl _)
  · obtain ⟨i, cmp⟩ := r
    rintro ⟨rfl, hvalid, t, hpadded, hnotated⟩
    rw [parseInterval_of_notated (Text.trim_eq_of_padded hnotated.tight hpadded) hnotated hvalid]
    rfl

/-- Only valid ranges are read. -/
theorem isValid_of_parseInt {t : Text} {r : Range Int64} (h : parseInt t = .ok r) : r.isValid :=
  (parseInt_eq_ok_iff.mp h).2.1

end Allotment.Range
