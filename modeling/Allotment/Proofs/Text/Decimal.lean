import Allotment.Proofs.Answer
import Allotment.Proofs.Text.Words
import Allotment.Text.Decimal

namespace Allotment.Decimal

/-!
# Decimal notation

A number is written as digits, zeros in front of them included, and a signed number as digits with
or without a sign.  Reading takes exactly these texts, for the numbers that a word can hold, and it
takes back what is printed.

* `Digits`, `Signed` — decimal notation, without and with a sign;
* `readNat_eq_ok_iff`, `parseInt_eq_ok_iff` — what is read;
* `signed_ofInt` — what is printed;
* `Signed.exists_cons`, `Signed.mem` — the glyphs of a signed number.
-/

variable {t : Text} {n : Nat}

/-! ### Digits -/

/-- A text of digits, at least one, and the number that they make up. -/
def Digits (t : Text) (n : Nat) : Prop :=
  ∃ cs : List Char, cs ≠ [] ∧ (∀ c ∈ cs, c.isDigit) ∧ t = cs.map .char ∧
    Nat.ofDigitChars 10 cs 0 = n

/-- A number in decimal notation, with or without a sign. -/
inductive Signed : Text → Int → Prop where
  | plain {t : Text} {n : Nat} (h : Digits t n) : Signed t n
  | plus {t : Text} {n : Nat} (h : Digits t n) : Signed (.char '+' :: t) n
  | minus {t : Text} {n : Nat} (h : Digits t n) : Signed (.char '-' :: t) (-n)

/-- The digits are a range of characters. -/
theorem isDigit_iff (c : Char) : c.isDigit ↔ '0' ≤ c ∧ c ≤ '9' := by
  simp only [Char.isDigit, ge_iff_le, Bool.and_eq_true, decide_eq_true_eq]
  exact Iff.rfl

/-- A glyph is read as a digit when it is one. -/
theorem digit?_eq_some_iff {g : Glyph} {d : Nat} :
    digit? g = some d ↔ ∃ c, g = .char c ∧ c.isDigit ∧ c.toNat - '0'.toNat = d := by
  cases g with
  | stray b => simp [digit?]
  | char c => simp [digit?, isDigit_iff]

/-- A number does not get less by more digits. -/
theorem le_ofDigitChars (cs : List Char) (acc : Nat) : acc ≤ Nat.ofDigitChars 10 cs acc := by
  rw [Nat.ofDigitChars_eq_ofDigitChars_zero]
  exact Nat.le_add_right_of_le (Nat.le_mul_of_pos_left acc (Nat.pow_pos (by omega)))

/-- Reading on from a number takes digits, as long as the number they make up is within the bound.
    The numbers on the way are at most the last one. -/
theorem readDigits_eq_ok_iff {bound acc : Nat} (hacc : acc ≤ bound) :
    readDigits bound acc t = .ok n ↔
      n ≤ bound ∧ ∃ cs : List Char, (∀ c ∈ cs, c.isDigit) ∧ t = cs.map .char ∧
        Nat.ofDigitChars 10 cs acc = n := by
  induction t generalizing acc with
  | nil =>
    simp only [readDigits, Except.ok.injEq, List.nil_eq, List.map_eq_nil_iff]
    constructor
    · rintro rfl
      exact ⟨hacc, [], by nofun, rfl, rfl⟩
    · rintro ⟨-, cs, -, rfl, rfl⟩
      rfl
  | cons g t ih =>
    simp only [readDigits]
    constructor
    · intro h
      split at h
      · cases h
      · next d hd =>
        obtain ⟨c, rfl, hc, rfl⟩ := digit?_eq_some_iff.mp hd
        split at h
        · next hle =>
          obtain ⟨hn, cs, hcs, rfl, hvalue⟩ := (ih hle).mp h
          refine ⟨hn, c :: cs, List.forall_mem_cons.mpr ⟨hc, hcs⟩, rfl, ?_⟩
          rw [Nat.ofDigitChars_cons, Nat.mul_comm]
          exact hvalue
        · cases h
    · rintro ⟨hn, cs, hcs, ht, hvalue⟩
      cases cs with
      | nil => cases ht
      | cons c cs =>
        rw [List.map_cons, List.cons.injEq] at ht
        obtain ⟨rfl, rfl⟩ := ht
        rw [List.forall_mem_cons] at hcs
        rw [Nat.ofDigitChars_cons, Nat.mul_comm] at hvalue
        -- The bound is checked at each digit, and the number so far is up to the whole number.
        have hle : acc * 10 + (c.toNat - '0'.toNat) ≤ bound :=
          calc
            acc * 10 + (c.toNat - '0'.toNat) ≤ Nat.ofDigitChars 10 cs
              (acc * 10 + (c.toNat - '0'.toNat)) :=
              le_ofDigitChars cs _
            _ = n := hvalue
            _ ≤ bound := hn
        rw [digit?_eq_some_iff.mpr ⟨c, rfl, hcs.1, rfl⟩]
        simp only [if_pos hle]
        exact (ih hle).mpr ⟨hn, cs, hcs.2, rfl, hvalue⟩

/-- The numbers up to a bound are read from their digits. -/
theorem readNat_eq_ok_iff {bound : Nat} : readNat bound t = .ok n ↔ n ≤ bound ∧ Digits t n := by
  unfold readNat Digits
  cases t with
  | nil => simp
  | cons g t =>
    rw [List.isEmpty_cons, if_neg Bool.false_ne_true, readDigits_eq_ok_iff (Nat.zero_le bound)]
    refine and_congr_right fun _ => exists_congr fun cs => ?_
    refine (and_iff_right_of_imp ?_).symm
    rintro ⟨-, ht, -⟩ rfl
    cases ht

/-! ### Signed numbers -/

theorem signLimit_eq : signLimit = 9223372036854775808 :=
  rfl

theorem signLimit_lt_maxWord : signLimit < maxWord := by
  decide

/-- Reading digits as the magnitude of a word takes those whose number the word can hold. -/
theorem readMagnitude_eq_ok_iff {negative : Bool} {v : Int64} :
    readMagnitude negative t = .ok v ↔
      ∃ n : Nat, Digits t n ∧ v.toInt = if negative then -(n : Int) else n := by
  have hlow := v.le_toInt
  have hhigh := v.toInt_lt
  have hlimit := signLimit_eq
  have hword := signLimit_lt_maxWord
  unfold readMagnitude
  simp only [Answer.bind_eq_ok, readNat_eq_ok_iff]
  refine exists_congr fun n => ?_
  -- There is one more negative number than there are positive ones, so the two bounds differ by
  -- one.
  cases negative with
  | true =>
    rw [if_pos rfl, if_pos rfl]
    constructor
    · rintro ⟨⟨-, hdigits⟩, h⟩
      split at h
      · cases h
        exact ⟨hdigits, Int64.toInt_ofInt_of_le (by omega) (by omega)⟩
      · cases h
    · rintro ⟨hdigits, hvalue⟩
      refine ⟨⟨by omega, hdigits⟩, ?_⟩
      rw [if_pos (by omega), ← hvalue, Int64.ofInt_toInt]
  | false =>
    rw [if_neg Bool.false_ne_true, if_neg Bool.false_ne_true]
    constructor
    · rintro ⟨⟨-, hdigits⟩, h⟩
      split at h
      · cases h
        exact ⟨hdigits, Int64.toInt_ofInt_of_le (by omega) (by omega)⟩
      · cases h
    · rintro ⟨hdigits, hvalue⟩
      refine ⟨⟨by omega, hdigits⟩, ?_⟩
      rw [if_pos (by omega), ← hvalue, Int64.ofInt_toInt]

theorem Digits.isDigit (h : Digits t n) {g : Glyph} (hg : g ∈ t) :
    ∃ c : Char, c.isDigit ∧ g = .char c := by
  obtain ⟨cs, -, hcs, rfl, -⟩ := h
  obtain ⟨c, hc, rfl⟩ := List.mem_map.mp hg
  exact ⟨c, hcs c hc, rfl⟩

/-- A sign is not a digit. -/
theorem not_digits_cons {c : Char} (hc : ¬ c.isDigit) : ¬ Digits (.char c :: t) n := by
  intro h
  obtain ⟨d, hd, heq⟩ := h.isDigit List.mem_cons_self
  cases heq
  exact hc hd

/-- A number is read from its digits, with or without a sign. -/
theorem readInt_eq_ok_iff {v : Int64} : readInt t = .ok v ↔ Signed t v.toInt := by
  unfold readInt
  split
  · rw [readMagnitude_eq_ok_iff]
    constructor
    · rintro ⟨n, hn, hvalue⟩
      rw [hvalue]
      exact .minus hn
    · intro h
      generalize v.toInt = m at h ⊢
      cases h with
      -- Digits without a sign do not start with one.
      | plain h => exact absurd h (not_digits_cons (by decide))
      | minus h => exact ⟨_, h, rfl⟩
  · rw [readMagnitude_eq_ok_iff]
    constructor
    · rintro ⟨n, hn, hvalue⟩
      rw [hvalue]
      exact .plus hn
    · intro h
      generalize v.toInt = m at h ⊢
      cases h with
      | plain h => exact absurd h (not_digits_cons (by decide))
      | plus h => exact ⟨_, h, rfl⟩
  · next hminus hplus =>
    rw [readMagnitude_eq_ok_iff]
    constructor
    · rintro ⟨n, hn, hvalue⟩
      rw [hvalue]
      exact .plain hn
    · intro h
      generalize v.toInt = m at h ⊢
      cases h with
      | plain h => exact ⟨_, h, rfl⟩
      | plus h => exact absurd rfl (hplus _)
      | minus h => exact absurd rfl (hminus _)

/-- A word is read from exactly the decimal notations of its number. -/
theorem parseInt_eq_ok_iff {v : Int64} : parseInt t = .ok v ↔ Signed t v.toInt := by
  rw [← readInt_eq_ok_iff, parseInt]
  split
  · next h => rw [h, Except.ok.injEq, Except.ok.injEq]
  · next h => simp [h]

/-! ### Printed numbers -/

/-- A printed number is read back. -/
theorem digits_ofNat (n : Nat) : Digits (Text.ofString (ofNat n)) n := by
  refine ⟨Nat.toDigits 10 n, Nat.toDigits_ne_nil, ?_, ?_, Nat.ofDigitChars_ten_toDigits⟩
  · exact fun c hc => Nat.isDigit_of_mem_toDigits (by omega) (by omega) hc
  · rw [Text.ofString, ofNat, String.toList_ofList]

/-- A number is printed in decimal notation. -/
theorem signed_ofInt (n : Int) : Signed (Text.ofString (ofInt n)) n := by
  cases n with
  | ofNat n => exact .plain (digits_ofNat n)
  | negSucc n =>
    have htext : Text.ofString (ofInt (.negSucc n)) = .char '-' :: Text.ofString (ofNat (n + 1)) :=
      Text.ofString_append "-" _
    rw [htext]
    exact .minus (digits_ofNat (n + 1))

/-! ### The glyphs of a number -/

namespace Signed

variable {n : Int}

/-- Only the first glyph of a number can be a sign. -/
theorem exists_cons (h : Signed t n) :
    ∃ g u, t = g :: u ∧ (g = .char '+' ∨ g = .char '-' ∨ ∃ c : Char, c.isDigit ∧ g = .char c) ∧
      ∀ x ∈ u, ∃ c : Char, c.isDigit ∧ x = .char c := by
  cases h with
  | plain h =>
    obtain ⟨cs, hne, hcs, rfl, -⟩ := h
    cases cs with
    | nil => exact absurd rfl hne
    | cons c cs =>
      rw [List.forall_mem_cons] at hcs
      refine ⟨.char c, cs.map .char, rfl, Or.inr (Or.inr ⟨c, hcs.1, rfl⟩), fun x hx => ?_⟩
      obtain ⟨d, hd, rfl⟩ := List.mem_map.mp hx
      exact ⟨d, hcs.2 d hd, rfl⟩
  | plus h => exact ⟨_, _, rfl, Or.inl rfl, fun _ hx => h.isDigit hx⟩
  | minus h => exact ⟨_, _, rfl, Or.inr (Or.inl rfl), fun _ hx => h.isDigit hx⟩

theorem ne_nil (h : Signed t n) : t ≠ [] := by
  obtain ⟨g, u, rfl, -, -⟩ := h.exists_cons
  exact List.cons_ne_nil g u

/-- A number is written with signs and digits only. -/
theorem mem (h : Signed t n) {g : Glyph} (hg : g ∈ t) :
    ∃ c : Char, g = .char c ∧ (c = '+' ∨ c = '-' ∨ c.isDigit) := by
  obtain ⟨x, u, rfl, hx, hu⟩ := h.exists_cons
  rcases List.mem_cons.mp hg with rfl | hg
  · rcases hx with rfl | rfl | ⟨c, hc, rfl⟩
    · exact ⟨'+', rfl, Or.inl rfl⟩
    · exact ⟨'-', rfl, Or.inr (Or.inl rfl)⟩
    · exact ⟨c, rfl, Or.inr (Or.inr hc)⟩
  · obtain ⟨c, hc, rfl⟩ := hu g hg
    exact ⟨c, rfl, Or.inr (Or.inr hc)⟩

end Signed

end Allotment.Decimal
