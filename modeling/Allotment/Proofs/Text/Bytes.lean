import Mathlib.Data.List.Basic
import Allotment.Text.Utf8

namespace Allotment

/-!
# Texts as bytes

Bytes are read as characters where they are well formed, and are stray where they are not.  No byte
is lost, and every byte of an ASCII character is such a character: the other characters have bytes
from 128 on only, and so have the strays.

* `Text.Decoded` — texts without stray ASCII bytes;
* `Utf8.decode_spec` — the bytes of a text are those that it was read from;
* `Text.Decoded.eq_ofNat_iff` — an ASCII byte is an ASCII character;
* `Text.slice?` — the part of a text between two byte positions, if it has both;
* `Text.slice?_append` — the parts of a text at the borders of its glyphs;
* `Text.Decoded.exists_byteAt?_zero`, `Text.Decoded.exists_byteAt?_last` — the first byte of a text
  and the last one.
-/

/-! ### The bytes of a character -/

/-- An ASCII character is one byte, and the bytes of another one are no ASCII characters. -/
theorem utf8EncodeChar_cases (c : Char) :
    (c.toNat < 128 ∧ String.utf8EncodeChar c = [UInt8.ofNat c.toNat]) ∨
      (128 ≤ c.toNat ∧ ∀ b ∈ String.utf8EncodeChar c, 128 ≤ b.toNat) := by
  unfold String.utf8EncodeChar
  simp only [Char.toNat]
  split
  · left
    exact ⟨by omega, rfl⟩
  · right
    refine ⟨by omega, ?_⟩
    -- Of two to four bytes, each has its highest bit set.
    have hlt := c.val.toNat_lt
    split
    · simp only [List.forall_mem_cons, List.not_mem_nil, UInt8.toNat_ofNat']
      refine ⟨by omega, by omega, by nofun⟩
    · split
      · simp only [List.forall_mem_cons, List.not_mem_nil, UInt8.toNat_ofNat']
        refine ⟨by omega, by omega, by omega, by nofun⟩
      · simp only [List.forall_mem_cons, List.not_mem_nil, UInt8.toNat_ofNat']
        refine ⟨by omega, by omega, by omega, by omega, by nofun⟩

/-- The width that a first byte announces, in terms of numbers. -/
theorem Utf8.width?_eq (b : UInt8) : Utf8.width? b =
    if b.toNat < 128 then some 1 else if b.toNat < 192 then none else if b.toNat < 224 then some 2
      else if b.toNat < 240 then some 3 else if b.toNat < 248 then some 4 else none := by
  simp only [Utf8.width?, UInt8.lt_iff_toNat_lt]
  rfl

/-- The first byte of a character tells how many there are. -/
theorem width?_head_utf8EncodeChar (c : Char) :
    ∃ lead rest, String.utf8EncodeChar c = lead :: rest ∧
      Utf8.width? lead = some (rest.length + 1) := by
  unfold String.utf8EncodeChar
  simp only [Utf8.width?_eq]
  split
  · refine ⟨_, _, rfl, ?_⟩
    rw [UInt8.toNat_ofNat', if_pos (by omega)]
    rfl
  · split
    · refine ⟨_, _, rfl, ?_⟩
      rw [UInt8.toNat_ofNat', if_neg (by omega), if_neg (by omega), if_pos (by omega)]
      rfl
    · split
      · refine ⟨_, _, rfl, ?_⟩
        rw [UInt8.toNat_ofNat', if_neg (by omega), if_neg (by omega), if_neg (by omega),
          if_pos (by omega)]
        rfl
      · refine ⟨_, _, rfl, ?_⟩
        rw [UInt8.toNat_ofNat', if_neg (by omega), if_neg (by omega), if_neg (by omega),
          if_neg (by omega), if_pos (by omega)]
        rfl

/-! ### Reading bytes -/

namespace Utf8

/-- The characters of a string that was read from bytes have these bytes. -/
theorem flatMap_of_fromUTF8? {bytes : List UInt8} {s : String}
    (h : String.fromUTF8? ⟨bytes.toArray⟩ = some s) :
    bytes = s.toList.flatMap String.utf8EncodeChar := by
  unfold String.fromUTF8? at h
  split at h
  · cases h
    next hvalid =>
    have hbytes : (String.fromUTF8 ⟨bytes.toArray⟩ hvalid).toByteArray = ⟨bytes.toArray⟩ := rfl
    rw [← String.ofList_toList (s := String.fromUTF8 ⟨bytes.toArray⟩ hvalid),
      String.toByteArray_ofList] at hbytes
    have hdata := congrArg (fun a => a.data.toList) hbytes
    simp only [List.utf8Encode, List.toList_data_toByteArray] at hdata
    exact hdata.symm
  · cases h

/-- The first character of some bytes stands at their front, and the number is that of its bytes. -/
theorem eq_of_firstChar? {bytes : List UInt8} {c : Char} {width : Nat}
    (h : firstChar? bytes = some (c, width)) :
    ∃ rest, bytes = String.utf8EncodeChar c ++ rest ∧ (String.utf8EncodeChar c).length = width := by
  cases bytes with
  | nil => cases h
  | cons b bytes =>
    simp only [firstChar?, List.head?_cons, Option.bind_eq_bind, Option.bind_some,
      Option.bind_eq_some_iff] at h
    obtain ⟨width', hwidth, s, hs, c', hc, heq⟩ := h
    cases heq
    obtain ⟨cs, hcs⟩ := List.head?_eq_some_iff.mp hc
    obtain ⟨lead, rest, hencode, hlead⟩ := width?_head_utf8EncodeChar c
    have hbytes := flatMap_of_fromUTF8? hs
    rw [hcs, List.flatMap_cons] at hbytes
    have htake := hbytes
    rw [hencode] at htake
    -- The first byte is that of the character, so the width is that of the character too, and
    -- nothing comes after it.
    have hb : b = lead := by
      cases width with
      | zero => cases htake
      | succ n => exact (List.cons.inj htake).1
    subst hb
    have hlength : (String.utf8EncodeChar c).length = width := by
      rw [hencode, List.length_cons]
      exact Option.some.inj (hlead.symm.trans hwidth)
    have hnothing : cs.flatMap String.utf8EncodeChar = [] := by
      have hle := List.length_take_le width (b :: bytes)
      rw [hbytes, List.length_append] at hle
      exact List.eq_nil_of_length_eq_zero (by omega)
    rw [hnothing, List.append_nil] at hbytes
    refine ⟨(b :: bytes).drop width, ?_, hlength⟩
    rw [← hbytes, List.take_append_drop]

/-- A byte that starts no character is no ASCII character. -/
theorem le_of_firstChar?_eq_none {b : UInt8} {bytes : List UInt8}
    (h : firstChar? (b :: bytes) = none) : 128 ≤ b.toNat := by
  by_contra hascii
  have hlt : b.toNat < 128 := by omega
  have hchar : (Char.ofNat b.toNat).toNat = b.toNat := by
    rw [Char.ofNat, dif_pos (Or.inl (by omega))]
    rfl
  have hencode : String.utf8EncodeChar (Char.ofNat b.toNat) = [b] := by
    rcases utf8EncodeChar_cases (Char.ofNat b.toNat) with ⟨-, heq⟩ | ⟨hle, -⟩
    · rw [heq, hchar, UInt8.ofNat_toNat]
    · omega
  have hvalid : (⟨[b].toArray⟩ : ByteArray).IsValidUTF8 := by
    refine ⟨[Char.ofNat b.toNat], ?_⟩
    rw [List.utf8Encode_singleton, hencode]
    rfl
  have hread : String.fromUTF8? ⟨[b].toArray⟩ = some (String.fromUTF8 ⟨[b].toArray⟩ hvalid) :=
    dif_pos hvalid
  have hwidth : width? b = some 1 := by rw [width?_eq, if_pos hlt]
  simp only [firstChar?, List.head?_cons, Option.bind_eq_bind, Option.bind_some, hwidth,
    List.take_succ_cons, List.take_zero, hread, Option.bind_eq_none_iff] at h
  -- The string of the byte has a character, since it has a byte.
  have hbytes := flatMap_of_fromUTF8? hread
  cases hlist : (String.fromUTF8 ⟨[b].toArray⟩ hvalid).toList with
  | nil =>
    rw [hlist] at hbytes
    cases hbytes
  | cons c cs =>
    rw [hlist] at h
    exact absurd (h c rfl) (by simp)

/-- Skipping bytes is reading on from behind them. -/
theorem decodeFrom_eq_drop (n : Nat) (bytes : List UInt8) :
    decodeFrom n bytes = decodeFrom 0 (bytes.drop n) := by
  induction bytes generalizing n with
  | nil =>
    rw [List.drop_nil]
    rfl
  | cons b bytes ih =>
    cases n with
    | zero => rfl
    | succ n =>
      rw [List.drop_succ_cons, ← ih n]
      rfl

/-- Bytes are read as a character and what follows it, or as a stray byte and what follows it. -/
theorem decode_cons (b : UInt8) (bytes : List UInt8) :
    (∃ c rest, b :: bytes = String.utf8EncodeChar c ++ rest ∧
      decode (b :: bytes) = .char c :: decode rest) ∨
      128 ≤ b.toNat ∧ decode (b :: bytes) = .stray b :: decode bytes := by
  cases hfirst : firstChar? (b :: bytes) with
  | none =>
    right
    refine ⟨le_of_firstChar?_eq_none hfirst, ?_⟩
    simp only [decode, decodeFrom, hfirst]
  | some first =>
    left
    obtain ⟨c, width⟩ := first
    obtain ⟨rest, hbytes, hlength⟩ := eq_of_firstChar? hfirst
    refine ⟨c, rest, hbytes, ?_⟩
    simp only [decode, decodeFrom, hfirst]
    obtain ⟨lead, more, hencode, -⟩ := width?_head_utf8EncodeChar c
    rw [hencode, List.cons_append, List.cons.injEq] at hbytes
    rw [hencode, List.length_cons] at hlength
    -- The other bytes of the character are left out, and decoding goes on after them.
    rw [decodeFrom_eq_drop, hbytes.2, ← hlength, Nat.add_sub_cancel, List.drop_left]

end Utf8

/-- A text whose stray bytes are no ASCII characters. -/
def Text.Decoded (t : Text) : Prop :=
  ∀ b, .stray b ∈ t → 128 ≤ b.toNat

theorem Text.Decoded.cons {g : Glyph} {t : Text} (hg : ∀ b, g = .stray b → 128 ≤ b.toNat)
    (ht : t.Decoded) : Text.Decoded (g :: t) := by
  intro b hb
  rcases List.mem_cons.mp hb with heq | hb
  · exact hg b heq.symm
  · exact ht b hb

namespace Utf8

/-- No byte is lost in reading, and no ASCII byte is stray. -/
theorem decode_spec (bytes : List UInt8) :
    (decode bytes).bytes = bytes ∧ (decode bytes).Decoded := by
  -- The bytes of a character are taken off together, so the induction is on the number of the
  -- bytes.
  induction hlength : bytes.length using Nat.strongRecOn generalizing bytes with
  | ind n ih =>
    cases bytes with
    | nil => exact ⟨rfl, by nofun⟩
    | cons b bytes =>
      rcases decode_cons b bytes with ⟨c, rest, hbytes, hdecode⟩ | ⟨hle, hdecode⟩
      · have hshorter : rest.length < n := by
          obtain ⟨lead, more, hencode, -⟩ := width?_head_utf8EncodeChar c
          rw [← hlength, hbytes, hencode, List.length_append, List.length_cons]
          omega
        obtain ⟨hrest, hdecoded⟩ := ih rest.length hshorter rest rfl
        rw [hdecode]
        refine ⟨?_, hdecoded.cons (by nofun)⟩
        show String.utf8EncodeChar c ++ (decode rest).bytes = _
        rw [hrest, hbytes]
      · obtain ⟨hrest, hdecoded⟩ := ih bytes.length (by rw [← hlength, List.length_cons]; omega)
          bytes rfl
        rw [hdecode]
        refine ⟨?_, hdecoded.cons ?_⟩
        · show b :: (decode bytes).bytes = _
          rw [hrest]
        · rintro _ ⟨⟩
          exact hle

end Utf8

/-! ### ASCII bytes -/

namespace Glyph

theorem length_bytes (g : Glyph) : g.bytes.length = g.byteLength := by
  cases g with
  | char c => exact String.length_utf8EncodeChar c
  | stray b => rfl

theorem bytes_ne_nil (g : Glyph) : g.bytes ≠ [] := by
  cases g with
  | char c =>
    obtain ⟨lead, more, hencode, -⟩ := width?_head_utf8EncodeChar c
    rw [bytes, hencode]
    exact List.cons_ne_nil _ _
  | stray b => exact List.cons_ne_nil _ _

/-- Each glyph has at least one byte. -/
theorem byteLength_pos (g : Glyph) : 0 < g.byteLength := by
  rw [← length_bytes]
  exact List.length_pos_iff.mpr g.bytes_ne_nil

end Glyph

namespace Text

variable {t : Text}

/-- A byte of a glyph is an ASCII character exactly when the glyph is that character. -/
theorem Decoded.eq_ofNat_iff (ht : t.Decoded) {g : Glyph} (hg : g ∈ t) {b : UInt8}
    (hb : b ∈ g.bytes) {c : Char} (hc : c.toNat < 128) : b = UInt8.ofNat c.toNat ↔ g = .char c := by
  have hcode : (UInt8.ofNat c.toNat).toNat = c.toNat := by
    rw [UInt8.toNat_ofNat']
    omega
  constructor
  · rintro rfl
    cases g with
    | stray x =>
      -- A stray byte of a decoded text is not in ASCII.
      have hle := ht x hg
      rw [← List.mem_singleton.mp hb] at hle
      omega
    | char d =>
      -- A character in ASCII is its only byte, and the bytes of all others are not in ASCII.
      rcases utf8EncodeChar_cases d with ⟨hlt, hencode⟩ | ⟨-, hle⟩
      · rw [Glyph.bytes, hencode, List.mem_singleton] at hb
        have hcodes := congrArg UInt8.toNat hb
        rw [hcode, UInt8.toNat_ofNat'] at hcodes
        rw [Char.toNat_inj.mp (show c.toNat = d.toNat by omega)]
      · have hle' := hle _ hb
        omega
  · rintro rfl
    rcases utf8EncodeChar_cases c with ⟨-, hencode⟩ | ⟨hle, -⟩
    · rw [Glyph.bytes, hencode] at hb
      exact List.mem_singleton.mp hb
    · omega

/-! ### Positions -/

@[simp] theorem bytes_nil : bytes [] = [] :=
  rfl

@[simp] theorem bytes_cons (g : Glyph) (t : Text) : bytes (g :: t) = g.bytes ++ bytes t :=
  rfl

@[simp] theorem bytes_append (s t : Text) : bytes (s ++ t) = bytes s ++ bytes t :=
  List.flatMap_append

theorem length_bytes (t : Text) : t.bytes.length = t.byteLength := by
  induction t with
  | nil => rfl
  | cons g t ih =>
    rw [bytes_cons, List.length_append, ih, Glyph.length_bytes]
    rfl

/-- The number of bytes of two texts, one after the other. -/
theorem byteLength_append (s t : Text) : (s ++ t).byteLength = s.byteLength + t.byteLength := by
  rw [← length_bytes, bytes_append, List.length_append, length_bytes, length_bytes]

/-- Strays have the bytes that they are made of. -/
theorem bytes_map_stray (bs : List UInt8) : bytes (bs.map .stray) = bs := by
  induction bs with
  | nil => rfl
  | cons b bs ih =>
    rw [List.map_cons, bytes_cons, ih]
    rfl

/-- A text without its first `n` bytes. -/
def dropBytes : Nat → Text → Text
  | 0, t => t
  | n + 1, t => dropBytes n t.dropByte

/-- The byte at a position of a text, if it has the position. -/
def byteAt? (t : Text) (n : Nat) : Option UInt8 :=
  t.bytes[n]?

/-- The part of a text from one byte position to another, if they are in order and the text has
    them. -/
def slice? (t : Text) (start stop : Nat) : Option Text :=
  if start ≤ stop ∧ stop ≤ t.byteLength then some (dropBytes start (takeBytes stop t)) else none

theorem bytes_dropByte (t : Text) : t.dropByte.bytes = t.bytes.drop 1 := by
  cases t with
  | nil => rfl
  | cons g t =>
    cases g with
    | char c =>
      obtain ⟨lead, more, hencode, -⟩ := width?_head_utf8EncodeChar c
      rw [dropByte, Glyph.dropByte, bytes_append, bytes_map_stray, bytes_cons, Glyph.bytes, hencode]
      rfl
    | stray b => rfl

/-- Leaving out bytes of a text leaves out these bytes. -/
theorem bytes_dropBytes (n : Nat) (t : Text) : (dropBytes n t).bytes = t.bytes.drop n := by
  induction n generalizing t with
  | zero => rfl
  | succ n ih => rw [dropBytes, ih, bytes_dropByte, List.drop_drop, Nat.add_comm]

theorem takeBytes_cons_of_le {n : Nat} {g : Glyph} (h : g.byteLength ≤ n) (t : Text) :
    takeBytes n (g :: t) = g :: takeBytes (n - g.byteLength) t := by
  rw [takeBytes.eq_def]
  exact if_pos h

/-- A glyph that does not fit leaves its leading bytes. -/
theorem takeBytes_cons_of_lt {n : Nat} {g : Glyph} (h : n < g.byteLength) (t : Text) :
    takeBytes n (g :: t) = (g.bytes.take n).map .stray := by
  rw [takeBytes.eq_def]
  simp only [if_neg (Nat.not_le.mpr h)]
  cases g with
  | char c => rfl
  | stray b =>
    have hzero : n = 0 := Nat.lt_one_iff.mp h
    rw [hzero]
    rfl

/-- Taking bytes of a text takes these bytes, even if a glyph is cut. -/
theorem bytes_takeBytes (n : Nat) (t : Text) : (takeBytes n t).bytes = t.bytes.take n := by
  induction t generalizing n with
  | nil => simp only [takeBytes, bytes_nil, List.take_nil]
  | cons g t ih =>
    rw [bytes_cons, List.take_append, Glyph.length_bytes]
    by_cases hle : g.byteLength ≤ n
    · have hall : g.bytes.take n = g.bytes := List.take_of_length_le
        (by rw [Glyph.length_bytes]; exact hle)
      rw [takeBytes_cons_of_le hle, bytes_cons, ih, hall]
    · rw [takeBytes_cons_of_lt (Nat.not_le.mp hle), bytes_map_stray,
        Nat.sub_eq_zero_of_le (by omega), List.take_zero, List.append_nil]

/-- A part of a text has the bytes between the two positions. -/
theorem bytes_of_slice? {start stop : Nat} {u : Text} (h : t.slice? start stop = some u) :
    u.bytes = (t.bytes.take stop).drop start := by
  unfold slice? at h
  split at h
  · cases h
    rw [bytes_dropBytes, bytes_takeBytes]
  · cases h

/-- A cut at the end of a glyph keeps the glyphs before it. -/
theorem takeBytes_append (s t : Text) : takeBytes s.byteLength (s ++ t) = s := by
  induction s with
  | nil =>
    cases t with
    | nil => rfl
    | cons g t => exact takeBytes_cons_of_lt g.byteLength_pos t
  | cons g s ih =>
    have hlength : byteLength (g :: s) = g.byteLength + byteLength s := rfl
    rw [List.cons_append, takeBytes_cons_of_le (by omega), hlength, Nat.add_sub_cancel_left, ih]

theorem dropBytes_add (m n : Nat) (t : Text) :
    dropBytes (m + n) t = dropBytes n (dropBytes m t) := by
  induction m generalizing t with
  | zero => rw [Nat.zero_add, dropBytes]
  | succ m ih => rw [Nat.succ_add, dropBytes, dropBytes, ih]

/-- Each stray byte is left out at once. -/
theorem dropBytes_map_stray (bs : List UInt8) (t : Text) :
    dropBytes bs.length (bs.map .stray ++ t) = t := by
  induction bs with
  | nil => rfl
  | cons b bs ih => exact ih

/-- A glyph is left out byte by byte. -/
theorem dropBytes_glyph (g : Glyph) (t : Text) : dropBytes g.byteLength (g :: t) = t := by
  cases g with
  | char c =>
    obtain ⟨lead, more, hencode, -⟩ := width?_head_utf8EncodeChar c
    have hdrop : dropByte (.char c :: t) = more.map .stray ++ t := by
      rw [dropByte, Glyph.dropByte, hencode]
      rfl
    rw [← Glyph.length_bytes, Glyph.bytes, hencode, List.length_cons, dropBytes, hdrop,
      dropBytes_map_stray]
  | stray b => rfl

/-- And it keeps the glyphs after it. -/
theorem dropBytes_append (s t : Text) : dropBytes s.byteLength (s ++ t) = t := by
  induction s with
  | nil => rfl
  | cons g s ih =>
    have hlength : byteLength (g :: s) = g.byteLength + byteLength s := rfl
    rw [hlength, dropBytes_add, List.cons_append, dropBytes_glyph, ih]

/-- The part of a text between the borders of glyphs is what stands between them. -/
theorem slice?_append (s t u : Text) {start stop : Nat} (hstart : start = s.byteLength)
    (hstop : stop = (s ++ t).byteLength) : slice? (s ++ t ++ u) start stop = some t := by
  have hbounds : start ≤ stop ∧ stop ≤ (s ++ t ++ u).byteLength := by
    rw [hstart, hstop]
    simp only [byteLength_append]
    omega
  rw [slice?, if_pos hbounds, hstop, takeBytes_append, hstart, dropBytes_append]

/-! ### The first byte and the last one -/

/-- The part behind the first byte has the other bytes of the first glyph and those of the glyphs
    behind it. -/
theorem exists_slice?_one (g : Glyph) (u : Text) :
    ∃ rest, slice? (g :: u) 1 (byteLength (g :: u)) = some rest ∧
      rest.bytes = g.bytes.drop 1 ++ u.bytes := by
  have hlength : byteLength (g :: u) = g.byteLength + u.byteLength := rfl
  have hpos := g.byteLength_pos
  obtain ⟨rest, hrest⟩ : ∃ rest, slice? (g :: u) 1 (byteLength (g :: u)) = some rest :=
    ⟨_, if_pos ⟨by omega, Nat.le_refl _⟩⟩
  refine ⟨rest, hrest, ?_⟩
  have hzero : 1 - g.bytes.length = 0 := by
    rw [Glyph.length_bytes]
    omega
  rw [bytes_of_slice? hrest, ← length_bytes, List.take_length, bytes_cons, List.drop_append, hzero,
    List.drop_zero]

/-- The first byte of a text is an ASCII character where its first glyph is. -/
theorem Decoded.exists_byteAt?_zero {g : Glyph} {u : Text} (ht : Decoded (g :: u)) :
    ∃ b, byteAt? (g :: u) 0 = some b ∧
      ∀ c : Char, c.toNat < 128 → (b == UInt8.ofNat c.toNat) = (g == .char c) := by
  obtain ⟨b, bs, hg⟩ := List.exists_cons_of_ne_nil g.bytes_ne_nil
  have hb : b ∈ g.bytes := by
    rw [hg]
    exact List.mem_cons_self
  refine ⟨b, ?_, fun c hc => ?_⟩
  · rw [byteAt?, bytes_cons, hg]
    rfl
  · rw [Bool.eq_iff_iff, beq_iff_eq, beq_iff_eq]
    exact ht.eq_ofNat_iff List.mem_cons_self hb hc

/-- The last byte of a text is an ASCII character where its last glyph is. -/
theorem Decoded.exists_byteAt?_last {front : Text} {g : Glyph} (ht : Decoded (front ++ [g])) :
    ∃ b, byteAt? (front ++ [g]) (byteLength (front ++ [g]) - 1) = some b ∧
      ∀ c : Char, c.toNat < 128 → (b == UInt8.ofNat c.toNat) = (g == .char c) := by
  obtain ⟨bs, b, hg⟩ : ∃ bs b, g.bytes = bs ++ [b] :=
    ⟨_, _, (List.dropLast_append_getLast g.bytes_ne_nil).symm⟩
  have hb : b ∈ g.bytes := by
    rw [hg]
    exact List.mem_append_right _ List.mem_cons_self
  have hbytes : bytes (front ++ [g]) = (front.bytes ++ bs) ++ [b] := by
    rw [bytes_append, bytes_cons, bytes_nil, List.append_nil, hg, List.append_assoc]
  refine ⟨b, ?_, fun c hc => ?_⟩
  · rw [byteAt?, ← length_bytes, hbytes, List.length_append, List.length_singleton,
      Nat.add_sub_cancel, List.getElem?_concat_length]
  · rw [Bool.eq_iff_iff, beq_iff_eq, beq_iff_eq]
    exact ht.eq_ofNat_iff (List.mem_append_right _ List.mem_cons_self) hb hc

end Text

end Allotment
