import Allotment.Proofs.Range.Notation
import Allotment.Proofs.Text.Bytes

namespace Allotment.Range

/-!
# Reading by positions

A reader may go by the positions of the bytes: it looks at the first byte and at the last one, and
cuts the text between positions that it computes.  `intervalAt` is such a reader; it has no answer
when it asks for a byte or a part that the text does not have.  It always has one, and it is what
`parseInterval` reads.

* `shorthandAt`, `bracketedAt`, `intervalAt`, `parseIntAt` — the reader by positions;
* `shorthandAt_eq_some`, `bracketedAt_eq_some`, `intervalAt_eq_some` — it stays within the text;
* `parseInt_decode_notated` — what is read from any bytes, and that no position is missed.
-/

variable {α ε : Type} (accepts : Interval α → Bool) (value : Text → Except ε α)

/-- Reads a text without brackets; the hyphen is sought from the second byte on. -/
def shorthandAt (t : Text) : Option (Except (ParseError ε) (Interval α)) := do
  let rest ← t.slice? 1 t.byteLength
  match rest.bytes.findIdx? (· == 0x2d) with
  | none =>
    match value t with
    | .ok v => some (.ok (.singleton v))
    | .error e => some (.error (.badValue t e))
  | some n =>
    let part ← t.slice? 0 (n + 1)
    let back ← t.slice? (n + 2) t.byteLength
    some do
      let lower ← (value part.trim).mapError (.badFrom part t)
      let upper ← (value back.trim).mapError (.badTo back t)
      checked accepts t (.closed lower upper)

/-- Reads a text whose first byte is a bracket; the ends stand between that byte and the last
    one. -/
def bracketedAt (t : Text) (first : UInt8) : Option (Except (ParseError ε) (Interval α)) := do
  let last ← t.byteAt? (t.byteLength - 1)
  if last != 0x5d && last != 0x29 then some (.error (.unclosed t))
  else
    let body ← t.slice? 1 (t.byteLength - 1)
    match splitEnds body with
    | none => some (.error (.unseparated t))
    | some (front, back) => some do
      let lower ← parseLower value t front.trim (first == 0x5b)
      let upper ← parseUpper value t back.trim (last == 0x5d)
      checked accepts t ⟨lower, upper⟩

/-- Reads an interval by the positions of the bytes. -/
def intervalAt (s : Text) : Option (Except (ParseError ε) (Interval α)) :=
  let t := s.trim
  if t.byteLength = 0 then some (.error .blank)
  else do
    let first ← t.byteAt? 0
    if first != 0x5b && first != 0x28 then shorthandAt accepts value t
    else bracketedAt accepts value t first

/-- Reads a range of 64-bit integers by the positions of the bytes. -/
def parseIntAt (s : Text) : Option (Except (ParseError Decimal.Error) (Range Int64)) :=
  (intervalAt (fun i => i.isValid Order.int64) Decimal.parseInt s).map
    (·.map fun i => ⟨i, Order.int64⟩)

variable {t : Text}

/-! ### The hyphen -/

/-- Behind the first byte of a text there is a hyphen only where there is one behind the first
    glyph. -/
theorem not_mem_bytes {g : Glyph} {front back : Text} (ht : Text.Decoded (g :: (front ++ back)))
    (hfront : .char '-' ∉ front) : (0x2d : UInt8) ∉ g.bytes.drop 1 ++ front.bytes := by
  intro hmem
  rcases List.mem_append.mp hmem with hmem | hmem
  · -- A glyph with the byte of a hyphen is one, and has no byte behind it.
    have hg := (ht.eq_ofNat_iff List.mem_cons_self (List.mem_of_mem_drop hmem) (c := '-')
      (by decide)).mp rfl
    rw [hg] at hmem
    exact absurd hmem (by decide)
  · obtain ⟨x, hx, hb⟩ := List.mem_flatMap.mp hmem
    have hx' : x ∈ g :: (front ++ back) := List.mem_cons_of_mem _ (List.mem_append_left _ hx)
    rw [(ht.eq_ofNat_iff hx' hb (c := '-') (by decide)).mp rfl] at hx
    exact hfront hx

theorem findIdx?_of_not_mem {b : UInt8} {bytes : List UInt8} (h : b ∉ bytes) :
    bytes.findIdx? (· == b) = none := by
  rw [List.findIdx?_eq_none_iff]
  intro x hx
  rw [beq_eq_false_iff_ne]
  rintro rfl
  exact h hx

theorem findIdx?_append_cons {b : UInt8} {front : List UInt8} (back : List UInt8) (h : b ∉ front) :
    (front ++ b :: back).findIdx? (· == b) = some front.length := by
  rw [List.findIdx?_append, findIdx?_of_not_mem h, List.findIdx?_cons, beq_self_eq_true]
  simp

/-- Around a hyphen behind the first glyph the positions give the parts before it and behind it. -/
theorem shorthandAt_of_hyphen {g : Glyph} {front back : Text}
    (ht : Text.Decoded (g :: (front ++ .char '-' :: back))) (hfront : .char '-' ∉ front) :
    shorthandAt accepts value (g :: (front ++ .char '-' :: back)) =
      some (parseShorthand accepts value (g :: (front ++ .char '-' :: back))) := by
  have hcut : Text.cutAt [.char '-'] (front ++ .char '-' :: back) = some (front, back) := by
    have happend : front ++ .char '-' :: back = front ++ [.char '-'] ++ back := by simp
    rw [happend]
    exact Text.cutAt_append back hfront
  obtain ⟨rest, hrest, hbytes⟩ := Text.exists_slice?_one g (front ++ .char '-' :: back)
  obtain ⟨n, hn⟩ := Nat.exists_eq_add_of_lt g.byteLength_pos
  have hlength : Text.byteLength (g :: front) = n + front.byteLength + 1 := by
    show g.byteLength + front.byteLength = _
    omega
  -- Before the hyphen stand the other bytes of the first glyph and those of the part.
  have hindex : rest.bytes.findIdx? (· == 0x2d) = some (n + front.byteLength) := by
    have hsplit : rest.bytes = (g.bytes.drop 1 ++ front.bytes) ++ 0x2d :: back.bytes := by
      rw [hbytes, Text.bytes_append, Text.bytes_cons, List.append_assoc]
      rfl
    have hdrop : g.byteLength - 1 = n := by omega
    rw [hsplit, findIdx?_append_cons _ (not_mem_bytes ht hfront), List.length_append,
      List.length_drop, Glyph.length_bytes, Text.length_bytes, hdrop]
  have hpart : Text.slice? (g :: (front ++ .char '-' :: back)) 0 (n + front.byteLength + 1) =
      some (g :: front) :=
    Text.slice?_append [] (g :: front) (.char '-' :: back) rfl hlength.symm
  have hback : Text.slice? (g :: (front ++ .char '-' :: back)) (n + front.byteLength + 2)
      (Text.byteLength (g :: (front ++ .char '-' :: back))) = some back := by
    have htext : g :: (front ++ .char '-' :: back) = (g :: front ++ [.char '-']) ++ back ++ [] := by
      simp
    rw [htext]
    refine Text.slice?_append _ _ [] ?_ (by rw [List.append_nil])
    rw [Text.byteLength_append, hlength]
    rfl
  unfold shorthandAt parseShorthand
  simp only [hrest, hindex, hpart, hback, hcut, Option.bind_eq_bind, Option.bind_some,
    List.tail_cons]
  rfl

/-- A text without brackets is read within its bounds. -/
theorem shorthandAt_eq_some (ht : t.Decoded) (hne : t ≠ []) :
    shorthandAt accepts value t = some (parseShorthand accepts value t) := by
  cases t with
  | nil => exact absurd rfl hne
  | cons g u =>
    -- The hyphen is found among the bytes exactly when it is found among the glyphs.
    by_cases hmem : .char '-' ∈ u
    · obtain ⟨front, back, rfl, hfront⟩ := List.eq_append_cons_of_mem hmem
      exact shorthandAt_of_hyphen accepts value ht hfront
    · obtain ⟨rest, hrest, hbytes⟩ := Text.exists_slice?_one g u
      have hnone : rest.bytes.findIdx? (· == 0x2d) = none := by
        rw [← List.append_nil u] at ht
        rw [hbytes]
        exact findIdx?_of_not_mem (not_mem_bytes ht hmem)
      unfold shorthandAt parseShorthand
      simp only [hrest, hnone, Text.cutAt_eq_none hmem, Option.bind_eq_bind, Option.bind_some,
        List.tail_cons]
      cases value (g :: u) <;> rfl

/-! ### The brackets -/

/-- Between the first byte and the last one of a bracketed text stands its body. -/
theorem slice?_brackets (closedLower closedUpper : Bool) (body : Text) :
    Text.slice? (opening closedLower :: (body ++ [closing closedUpper])) 1
      (Text.byteLength (opening closedLower :: (body ++ [closing closedUpper])) - 1) =
      some body := by
  have hopening : Text.byteLength [opening closedLower] = 1 := by cases closedLower <;> rfl
  have hclosing : Text.byteLength [closing closedUpper] = 1 := by cases closedUpper <;> rfl
  refine Text.slice?_append [opening closedLower] body [closing closedUpper] hopening.symm ?_
  show Text.byteLength ([opening closedLower] ++ (body ++ [closing closedUpper])) - 1 = _
  simp only [Text.byteLength_append, hopening, hclosing]
  omega

/-- A text that starts with a bracket is read within its bounds.  No glyph is a bracket of both
    sides, so a text that ends with a bracket, too, has two glyphs and a body between them. -/
theorem bracketedAt_eq_some {closedLower : Bool} (ht : t.Decoded)
    (hhead : t.head? = some (opening closedLower)) {first : UInt8}
    (hfirst : (first == 0x5b) = closedLower) :
    bracketedAt accepts value t first = some (parseBracketed accepts value t closedLower) := by
  have hne : t ≠ [] := by
    rintro rfl
    cases hhead
  obtain ⟨init, x, hsplit⟩ : ∃ init x, t = init ++
      [x] := ⟨_, _, (List.dropLast_append_getLast hne).symm⟩
  have hgetLast : t.getLast? = some x := by rw [hsplit, List.getLast?_concat]
  obtain ⟨last, hlast, hx⟩ := Text.Decoded.exists_byteAt?_last (hsplit ▸ ht)
  rw [← hsplit] at hlast
  have hsquare : (last == 0x5d) = (x == .char ']') := hx ']' (by decide)
  have hround : (last == 0x29) = (x == .char ')') := hx ')' (by decide)
  unfold bracketedAt parseBracketed
  simp only [hlast, hgetLast, hfirst, bne, hsquare, hround, Option.some_beq_some,
    Option.bind_eq_bind, Option.bind_some]
  -- The body is cut out only behind this test, when both brackets are there.
  by_cases hclosing : ∃ closedUpper, x = closing closedUpper
  · obtain ⟨closedUpper, rfl⟩ := hclosing
    have htext := eq_of_brackets hhead hgetLast
    have hbody : Text.slice? t 1 (t.byteLength - 1) = some t.tail.dropLast := by
      have hslice := slice?_brackets closedLower closedUpper t.tail.dropLast
      rwa [← htext] at hslice
    have hclosed : (!(closing closedUpper == .char ']') && !(closing closedUpper == .char ')')) =
        false := by
      cases closedUpper <;> rfl
    simp only [hclosed, hbody, Option.bind_some]
    cases splitEnds t.tail.dropLast <;> rfl
  · have hopen : (!(x == .char ']') && !(x == .char ')')) = true := by
      rw [Bool.and_eq_true, Bool.not_eq_true', Bool.not_eq_true', beq_eq_false_iff_ne,
        beq_eq_false_iff_ne]
      exact ⟨fun hx => hclosing ⟨true, hx⟩, fun hx => hclosing ⟨false, hx⟩⟩
    simp only [hopen]
    rfl

/-! ### All texts -/

/-- What is left of a decoded text without the blanks around it is decoded. -/
theorem decoded_trim {s : Text} (hs : s.Decoded) : s.trim.Decoded := by
  obtain ⟨front, back, -, -, hsplit⟩ := Text.padded_trim s
  intro b hb
  refine hs b ?_
  rw [hsplit]
  exact List.mem_append_left _ (List.mem_append_right _ hb)

/-- Reading by positions never leaves the text, and it reads what `parseInterval` reads. -/
theorem intervalAt_eq_some {s : Text} (hs : s.Decoded) :
    intervalAt accepts value s = some (parseInterval accepts value s) := by
  have ht := decoded_trim hs
  unfold intervalAt parseInterval
  generalize s.trim = t at ht
  cases t with
  | nil => rfl
  | cons g u =>
    have hlength : Text.byteLength (g :: u) ≠ 0 := by
      have hpos := g.byteLength_pos
      show g.byteLength + Text.byteLength u ≠ 0
      omega
    -- The first byte is that of a bracket exactly when the first glyph is the bracket.
    obtain ⟨first, hfirst, hg⟩ := ht.exists_byteAt?_zero
    have hsquare : (first == 0x5b) = (g == .char '[') := hg '[' (by decide)
    have hround : (first == 0x28) = (g == .char '(') := hg '(' (by decide)
    simp only [hlength, hfirst, bne, hsquare, hround, Option.bind_eq_bind, Option.bind_some,
      if_false]
    by_cases hopening : ∃ closed, g = opening closed
    · obtain ⟨closed, rfl⟩ := hopening
      cases closed with
      | true => exact bracketedAt_eq_some accepts value ht rfl hsquare
      | false => exact bracketedAt_eq_some accepts value ht rfl hsquare
    · have hother : (!(g == .char '[') && !(g == .char '(')) = true := by
        rw [Bool.and_eq_true, Bool.not_eq_true', Bool.not_eq_true', beq_eq_false_iff_ne,
          beq_eq_false_iff_ne]
        exact ⟨fun hg => hopening ⟨true, hg⟩, fun hg => hopening ⟨false, hg⟩⟩
      simp only [hother, if_true, shorthandAt_eq_some accepts value ht (List.cons_ne_nil _ _)]
      split
      next heq => cases heq
      next heq =>
        cases heq
        exact absurd ⟨true, rfl⟩ hopening
      next heq =>
        cases heq
        exact absurd ⟨false, rfl⟩ hopening
      next => rfl

/-- **What is read from bytes, whatever they are.**  None of them is lost when they become a text.
    The text is read as a range exactly when it is, without the blanks around it, the notation of
    this range, which is valid.  And reading it by positions never asks for one that it does not
    have. -/
theorem parseInt_decode_notated (bytes : List UInt8) :
    (Utf8.decode bytes).bytes = bytes ∧
      (∀ r, parseInt (Utf8.decode bytes) = .ok r ↔
        r.cmp = Order.int64 ∧ r.isValid ∧ Notated (Utf8.decode bytes).trim r.toInterval) ∧
      parseIntAt (Utf8.decode bytes) = some (parseInt (Utf8.decode bytes)) := by
  obtain ⟨hbytes, hdecoded⟩ := Utf8.decode_spec bytes
  refine ⟨hbytes, fun r => ?_, ?_⟩
  · rw [parseInt_eq_ok_iff]
    constructor
    · rintro ⟨hcmp, hvalid, t, hpadded, hnotated⟩
      -- A notation has no blanks at its ends, so it is all that is left without them.
      rw [Text.trim_eq_of_padded hnotated.tight hpadded]
      exact ⟨hcmp, hvalid, hnotated⟩
    · rintro ⟨hcmp, hvalid, hnotated⟩
      exact ⟨hcmp, hvalid, _, Text.padded_trim _, hnotated⟩
  · rw [parseIntAt, intervalAt_eq_some _ _ hdecoded]
    rfl

end Allotment.Range
