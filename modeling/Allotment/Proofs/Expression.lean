import Allotment.Expression
import Allotment.Proofs.Answer
import Allotment.Proofs.Domain
import Allotment.Proofs.IntervalSet.Region
import Allotment.Proofs.IntervalSet.Tiling

namespace Allotment

/-!
# What a set expression computes

An expression is a list of texts, and each text says for itself what becomes of a number: `+R` puts
it into the set if it is in the range `R`, `-R` takes it out, and `~` turns the answer around.  The
set of the expression answers for each number as the texts do, one after another; and the two lines
that show the set and its complement divide the line.

* `Operation.act`, `Operation.actOf` — what a text or an operation makes of the answer for a number;
* `Operation.apply_spec` — one operation on a set;
* `Operation.foldl_apply_spec` — all of them;
* `Expression.Evaluated`, `Expression.eval_evaluated` — the set of an expression, and what is shown
  of it.
-/

namespace Operation

/-! ### What a text says -/

/-- The first byte of a text, and what is left without it. -/
def firstByte? : Text → Option (Char × Text)
  | [] => none
  | g :: t => some (g.leadChar, g.dropByte ++ t)

example (t : Text) : firstByte? (.char '+' :: t) = some ('+', t) ∧
    firstByte? (.char '-' :: t) = some ('-', t) :=
  ⟨rfl, rfl⟩

/-- Whether a text is a range with a certain number. -/
def names (v : Int64) (t : Text) : Bool :=
  match Range.parseInt t with
  | .ok r => r.contains v
  | .error _ => false

/-- What a text makes of the answer whether a number is in the set. -/
def act (v : Int64) (b : Bool) (text : Text) : Bool :=
  if text.trim = [.char '~'] then !b
  else
    match firstByte? text.trim with
    | some ('+', r) => b || names v r
    | some ('-', r) => b && !names v r
    | _ => b

/-- What an operation makes of the answer whether a number is in the set. -/
def actOf (v : Int64) (b : Bool) : Operation → Bool
  | .add r => b || r.contains v
  | .remove r => b && !r.contains v
  | .complement => !b

/-- An operation whose range is read in the order of the numbers. -/
def ReadIn : Operation → Prop
  | .add r | .remove r => r.cmp = Order.int64
  | .complement => True

/-- The ranges that are read are ranges in the order of the numbers. -/
theorem cmp_of_parseInt {t : Text} {r : Range Int64} (h : Range.parseInt t = .ok r) :
    r.cmp = Order.int64 := by
  unfold Range.parseInt Range.parse at h
  cases hinterval : Range.parseInterval (fun i => i.isValid Order.int64) Decimal.parseInt t with
  | error e =>
    rw [hinterval] at h
    cases h
  | ok i =>
    rw [hinterval] at h
    obtain rfl := Except.ok.inj h
    rfl

/-- The sign of an operation decides between the two that take a range. -/
theorem make?_eq_some {c : Char} {r : Range Int64} {op : Operation} (h : make? c r = some op) :
    c = '+' ∧ op = .add r ∨ c = '-' ∧ op = .remove r := by
  unfold make? at h
  split at h
  · exact Or.inl ⟨rfl, (Option.some.inj h).symm⟩
  · exact Or.inr ⟨rfl, (Option.some.inj h).symm⟩
  · cases h

/-- A text that is read as an operation is `~`, or an operator before a range. -/
theorem parse_eq_ok {text : Text} {op : Operation} (h : parse text = .ok op) :
    text.trim = [.char '~'] ∧ op = .complement ∨
      text.trim ≠ [.char '~'] ∧ ∃ c t r, firstByte? text.trim = some (c, t) ∧
        Range.parseInt t = .ok r ∧ make? c r = some op := by
  unfold parse at h
  simp only [beq_iff_eq] at h
  split at h
  · next htilde => exact Or.inl ⟨htilde, (Except.ok.inj h).symm⟩
  · next htilde =>
    right
    refine ⟨htilde, ?_⟩
    split at h
    · cases h
    · -- There is a sign; what follows it has to be read as a range.
      next g t htrim =>
      rw [htrim] at h ⊢
      split at h
      · cases h
      split at h
      · cases h
      next r hr =>
        split at h
        · next made hmade => exact ⟨_, _, r, rfl, hr, hmade.trans (congrArg some (Except.ok.inj h))⟩
        · cases h

/-- All operations that are read have ranges in the order of the numbers. -/
theorem readIn_of_parse {text : Text} {op : Operation} (h : parse text = .ok op) : op.ReadIn := by
  rcases parse_eq_ok h with ⟨-, rfl⟩ | ⟨-, c, t, r, -, hr, hmake⟩
  · trivial
  · rcases make?_eq_some hmake with ⟨-, rfl⟩ | ⟨-, rfl⟩
    · exact cmp_of_parseInt hr
    · exact cmp_of_parseInt hr

/-- An operation does what its text says. -/
theorem act_of_parse {text : Text} {op : Operation} (h : parse text = .ok op) (v : Int64)
    (b : Bool) : act v b text = op.actOf v b := by
  rcases parse_eq_ok h with ⟨htilde, rfl⟩ | ⟨htilde, c, t, r, hfirst, hr, hmake⟩
  · simp only [act, htilde, if_true, actOf]
  · have hnames : names v t = r.contains v := by simp only [names, hr]
    rcases make?_eq_some hmake with ⟨rfl, rfl⟩ | ⟨rfl, rfl⟩
    · simp only [act, htilde, if_false, hfirst, hnames, actOf]
    · simp only [act, htilde, if_false, hfirst, hnames, actOf]

/-! ### Operations on a set -/

/-- One operation keeps the normal form, and changes the answer for each number as it says.  A
    complement is a set of its own with the gaps as members. -/
theorem apply_spec {s : IntervalSet Int64} (hs : View.Sound Order.int64 ⟨s, .inside⟩)
    {op : Operation} (hop : op.ReadIn) :
    View.Sound Order.int64 ⟨op.apply s, .inside⟩ ∧
      ∀ v, (op.apply s).contains v = op.actOf v (s.contains v) := by
  have hcell : (Cell.ofSet s).Sound Order.int64 := ⟨hs.order, hs.normal⟩
  cases op with
  | add r =>
    have hread : (Edit.add (some r)).ReadIn Order.int64 := Range.Optional.readIn_some hop
    have hsound := Cell.sound_apply hcell hread
    exact ⟨⟨hsound.order, hsound.normal⟩, Cell.contains_apply hcell rfl hread⟩
  | remove r =>
    have hread : (Edit.remove (some r)).ReadIn Order.int64 := Range.Optional.readIn_some hop
    have hsound := Cell.sound_apply hcell hread
    exact ⟨⟨hsound.order, hsound.normal⟩, Cell.contains_apply hcell rfl hread⟩
  | complement =>
    -- The members of the copy are the gaps, which are in normal form as the members were.
    have hout : View.Sound Order.int64 ⟨s, .outside⟩ := ⟨hs.order, hs.normal⟩
    refine ⟨?_, fun v => ?_⟩
    · show View.Sound Order.int64 ⟨View.copy ⟨s, .outside⟩, .inside⟩
      rw [hout.copy_eq]
      exact ⟨rfl, hout.intervals⟩
    · obtain ⟨cmp, ms⟩ := s
      obtain rfl : cmp = Order.int64 := hs.order
      exact View.contains_copy (w := ⟨⟨Order.int64, ms⟩, .outside⟩) hs.normal v

/-- All operations, one after another. -/
theorem foldl_apply_spec {texts : List Text} {ops : List Operation}
    (h : List.Forall₂ (fun text op => parse text = .ok op) texts ops) {s : IntervalSet Int64}
    (hs : View.Sound Order.int64 ⟨s, .inside⟩) :
    View.Sound Order.int64 ⟨ops.foldl apply s, .inside⟩ ∧
      ∀ v, (ops.foldl apply s).contains v = texts.foldl (act v) (s.contains v) := by
  induction h generalizing s with
  | nil => exact ⟨hs, fun _ => rfl⟩
  | cons hparse _ ih =>
    obtain ⟨hsound, hcontains⟩ := apply_spec hs (readIn_of_parse hparse)
    obtain ⟨hsound', hcontains'⟩ := ih hsound
    refine ⟨hsound', fun v => ?_⟩
    simp only [List.foldl_cons, hcontains', hcontains, act_of_parse hparse]

end Operation

namespace Expression

/-- The set of an expression: it has a number exactly when the texts say so, starting from nothing;
    it is in normal form; and the intervals that are shown of it and of its complement, sorted by
    their lower cuts, go from the first cut to the last one, each from where the one before it
    ends. -/
structure Evaluated (texts : List Text) (s : IntervalSet Int64) : Prop where
  contains : ∀ v, s.contains v = texts.foldl (Operation.act v) false
  order : s.cmp = Order.int64
  normal : IntervalSet.Normal Order.int64 s.members
  report : report texts = .ok (String.join ((lines s).map (· ++ "\n")))
  first : (lines s).head? = some ("set:        " ++ View.text ⟨s, .inside⟩)
  last : (lines s).getLast? = some ("complement: " ++ View.text ⟨s, .outside⟩)
  tiles : IntervalSet.Tiles Order.int64 .bottom
    (IntervalSet.byLower Order.int64 (View.intervals ⟨s, .inside⟩ ++ View.intervals ⟨s, .outside⟩))
    .top

/-- **An expression computes its set.**  Take any texts that are accepted as operations.  The set
    that they make has a number exactly when the texts, read from left to right and starting from an
    empty set, say so: `+R` adds the numbers of the range `R`, `-R` takes them away, and `~` turns
    the answer around.  The set is in normal form, after any number of complements that were made
    into sets of their own.  The report shows the intervals of the set and those of its complement,
    and these divide the line: sorted by their lower cuts, the first begins at the first cut, each
    of the others where the one before it ends, and the last one ends at the last cut. -/
theorem eval_evaluated {texts : List Text} {s : IntervalSet Int64} (h : eval texts = .ok s) :
    Evaluated texts s := by
  obtain ⟨ops, hops, hs⟩ := Answer.bind_eq_ok.mp h
  obtain rfl := Except.ok.inj hs
  obtain ⟨hsound, hcontains⟩ := Operation.foldl_apply_spec (Answer.mapM_eq_ok_iff.mp hops)
    (s := .empty Order.int64) ⟨rfl, IntervalSet.normal_nil⟩
  exact
    { contains := hcontains
      order := hsound.order
      normal := hsound.normal
      report := Answer.bind_eq_ok.mpr ⟨_, h, rfl⟩
      first := rfl
      last := List.getLast?_concat
      tiles := IntervalSet.tiles_byLower hsound.order hsound.normal }

/-- Two complements with changes before, between and after them; a range without a number changes
    nothing. -/
def sampleTexts : List Text :=
  ["+[1‥10]", " -(3..5) ", "~", "+7", "-(-inf‥0)", "~", "+[20‥20)"].map Text.ofString

/-- Seven operations with all three signs, two spellings of infinity and an empty range. -/
theorem sampleTexts_evaluated :
    ∃ s, eval sampleTexts = .ok s ∧ Evaluated sampleTexts s ∧
      View.text ⟨s, .inside⟩ = "(-∞‥0)[1‥3][5‥7)(7‥10]" ∧
      View.text ⟨s, .outside⟩ = "[0‥1)(3‥5)[7‥7](10‥+∞)" := by
  have htexts : (eval sampleTexts).toOption.map
      (fun s => (View.text ⟨s, .inside⟩, View.text ⟨s, .outside⟩)) =
      some ("(-∞‥0)[1‥3][5‥7)(7‥10]", "[0‥1)(3‥5)[7‥7](10‥+∞)") := by
    decide +kernel
  obtain ⟨s, hs, htexts⟩ := Option.map_eq_some_iff.mp htexts
  have heval := Answer.eq_ok_of_toOption hs
  obtain ⟨hinside, houtside⟩ := Prod.mk.inj htexts
  exact ⟨s, heval, eval_evaluated heval, hinside, houtside⟩

end Expression

end Allotment
