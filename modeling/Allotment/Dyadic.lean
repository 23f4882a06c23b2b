namespace Allotment.Dyadic

/-!
# Dyadic blocks

A dyadic block is a stretch of `2 ^ h` numbers whose first number is divisible by `2 ^ h`.  `cover`
splits the numbers from `a` to `b` into such blocks: it looks for the highest bit in which `a` and
`b` differ, and unless the two are the ends of one block it splits at that bit.
-/

/-- A stretch of `2 ^ hostBits` numbers from `start` on. -/
structure Block where
  start : Nat
  hostBits : Nat
deriving DecidableEq

/-- The size of a block with `h` host bits: `2 ^ h`. -/
def size (h : Nat) : Nat :=
  1 <<< h

/-- No block is without a number. -/
theorem size_pos (h : Nat) : 0 < size h := by
  rw [size, Nat.one_shiftLeft]
  exact Nat.two_pow_pos h

/-- More host bits make a greater block. -/
theorem size_le_size {h k : Nat} (hk : h ≤ k) : size h ≤ size k := by
  rw [size, size, Nat.one_shiftLeft, Nat.one_shiftLeft]
  exact Nat.pow_le_pow_right (by decide) hk

/-- One more host bit makes a block twice as large. -/
theorem size_succ (h : Nat) : size (h + 1) = 2 * size h := by
  rw [size, size, Nat.one_shiftLeft, Nat.one_shiftLeft, Nat.pow_succ, Nat.mul_comm]

/-- Whether `a` and `b` are the first and the last number of a block with `h` host bits. -/
def isBlock (h a b : Nat) : Bool :=
  a % size h == 0 && b % size h == size h - 1

/-- The blocks from `a` to `b`, two numbers that agree above their lowest `h` bits. -/
def cover : Nat → Nat → Nat → List Block
  | 0, a, _ => [⟨a, 0⟩]
  | h + 1, a, b =>
    if a.testBit h == b.testBit h then cover h a b
    else if isBlock (h + 1) a b then [⟨a, h + 1⟩]
    else cover h a (a ||| (size h - 1)) ++ cover h (b - b % size h) b

end Allotment.Dyadic
