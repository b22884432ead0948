/-
# Words

A word of a width `w` is a number below `2 ^ w`, and never one of more than
`maxBits` bits: a greater width has the words of `maxBits` bits. The operations
take the width and any numbers, of which only the low bits matter, and give a
word of that width: sums and differences wrap, `slice` takes the bits from one
position up to another, `concat` puts one word above another.

Key definitions: `BinaryOp`, `Word.count`, `Word.truncate`, `Word.binary`,
`Word.slice`, `Word.concat`, `Word.ite`, `Word.isZero`.
Key theorems: `Word.count_of_le`, `Word.binary_lt`, `Word.slice_lt`, `Word.concat_lt`.
-/

namespace Lockstep

/-- The widest word that a value holds. -/
def maxBits : Nat := 32

/-- The two-operand operations that every domain knows. -/
inductive BinaryOp where
  | add
  | sub
  | and
  | or
  | xor
  deriving DecidableEq, Repr

namespace BinaryOp

def all : List BinaryOp := [add, sub, and, or, xor]

/-- The written name of an operation. -/
def name : BinaryOp → String
  | add => "add"
  | sub => "sub"
  | and => "and"
  | or => "or"
  | xor => "xor"

/-- The operation of a written name. -/
def ofName? (s : String) : Option BinaryOp := all.find? (·.name = s)

/-- The name under which a refused operation is reported. -/
def label : BinaryOp → String
  | add => "add"
  | sub => "sub"
  | and => "and_"
  | or => "or_"
  | xor => "xor_"

end BinaryOp

namespace Word

/-- The weight of the bit at a position, two to the position. -/
def weight (place : Nat) : Nat := Nat.pow 2 place

/-- The number of words of a width. -/
def count (bits : Nat) : Nat := weight (min bits maxBits)

def max (bits : Nat) : Nat := count bits - 1

/-- The low `bits` bits of a number. -/
def truncate (bits n : Nat) : Nat := n % count bits

/-- The two-operand operations, wrapping at the width. -/
def binary (op : BinaryOp) (bits a b : Nat) : Nat :=
  match op with
  | .add => truncate bits (a + b)
  | .sub => truncate bits (a + (count bits - truncate bits b))
  | .and => truncate bits (a &&& b)
  | .or => truncate bits (a ||| b)
  | .xor => truncate bits (a ^^^ b)

def invert (bits a : Nat) : Nat := count bits - 1 - truncate bits a

/-- The bits from position `lo` up to, and without, position `hi`. -/
def slice (a lo hi : Nat) : Nat := truncate (hi - lo) (a >>> lo)

/-- The low word below the high word. -/
def concat (lo loBits hi hiBits : Nat) : Nat :=
  truncate hiBits hi * weight loBits + truncate loBits lo

/-- The first word if the low bit of the condition is set, and otherwise the second. -/
def ite (bits cond t f : Nat) : Nat :=
  truncate bits (if cond % 2 = 1 then t else f)

/-- One where the word is zero, and zero elsewhere. -/
def isZero (bits a : Nat) : Nat := if truncate bits a = 0 then 1 else 0

/-! ### Results are words -/

theorem weight_add (m n : Nat) : weight (m + n) = weight m * weight n := Nat.pow_add 2 m n

theorem count_pos (bits : Nat) : 0 < count bits := Nat.two_pow_pos _

/-- Up to the widest word there are two to the width words. -/
theorem count_of_le {bits : Nat} (h : bits ≤ maxBits) : count bits = weight bits := by
  rw [count, Nat.min_eq_left h]

theorem truncate_lt (bits n : Nat) : truncate bits n < count bits := Nat.mod_lt _ (count_pos bits)

theorem truncate_of_lt {bits n : Nat} (h : n < count bits) : truncate bits n = n :=
  Nat.mod_eq_of_lt h

@[simp] theorem truncate_truncate (bits n : Nat) :
    truncate bits (truncate bits n) = truncate bits n := Nat.mod_mod _ _

theorem binary_lt (op : BinaryOp) (bits a b : Nat) : binary op bits a b < count bits := by
  cases op <;> exact truncate_lt _ _

theorem invert_lt (bits a : Nat) : invert bits a < count bits := by
  have := count_pos bits
  unfold invert
  omega

theorem slice_lt (a lo hi : Nat) : slice a lo hi < count (hi - lo) := truncate_lt _ _

theorem concat_lt (lo : Nat) {loBits : Nat} (hi : Nat) {hiBits : Nat}
    (h : loBits + hiBits ≤ maxBits) : concat lo loBits hi hiBits < count (loBits + hiBits) := by
  have h1 : truncate hiBits hi < weight hiBits :=
    count_of_le (Nat.le_of_add_left_le h) ▸ truncate_lt hiBits hi
  have h2 : truncate loBits lo < weight loBits :=
    count_of_le (Nat.le_of_add_right_le h) ▸ truncate_lt loBits lo
  calc truncate hiBits hi * weight loBits + truncate loBits lo
      < truncate hiBits hi * weight loBits + weight loBits := by omega
    _ = (truncate hiBits hi + 1) * weight loBits := by rw [Nat.add_mul, Nat.one_mul]
    _ ≤ weight hiBits * weight loBits := Nat.mul_le_mul_right _ h1
    _ = count (loBits + hiBits) := by rw [count_of_le h, weight_add, Nat.mul_comm]

theorem ite_lt (bits cond t f : Nat) : ite bits cond t f < count bits := truncate_lt _ _

theorem isZero_lt (bits a : Nat) : isZero bits a < count 1 := by
  unfold isZero
  split <;> decide

end Word

end Lockstep
