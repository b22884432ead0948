/-
# The laws of words

The bits of slices and concatenations, and what the operations do on neutral,
absorbing and equal operands. These are the equations that folding a term
rests on.

Key theorems: `Word.testBit_slice`, `Word.testBit_concat`, `Word.slice_slice`,
`Word.slice_concat_low`, `Word.slice_concat_high`, `Word.concat_slices`.
-/
import Mathlib.Algebra.Group.Nat.Defs
import Lockstep.Word

namespace Lockstep
namespace Word

theorem weight_eq (n : Nat) : weight n = 2 ^ n := rfl

theorem weight_pos (n : Nat) : 0 < weight n := Nat.two_pow_pos n

theorem count_eq (bits : Nat) : count bits = 2 ^ min bits maxBits := rfl

/-- Below the widest word a number below the count is below the power. -/
theorem lt_weight {w n : Nat} (hw : w ≤ maxBits) (h : n < count w) : n < 2 ^ w := by
  rwa [count_of_le hw, weight_eq] at h

/-! ### Bits -/

theorem testBit_truncate (bits n i : Nat) :
    (truncate bits n).testBit i = (decide (i < min bits maxBits) && n.testBit i) := by
  rw [truncate, count_eq, Nat.testBit_mod_two_pow]

/-- The bits of a slice are those of the word from its position on. -/
theorem testBit_slice (a : Nat) {lo hi : Nat} (h : hi - lo ≤ maxBits) (i : Nat) :
    (slice a lo hi).testBit i = (decide (i < hi - lo) && a.testBit (lo + i)) := by
  rw [slice, testBit_truncate, Nat.testBit_shiftRight, Nat.min_eq_left h]

/-- The bits of a concatenation are those of the low word, then those of the high one. -/
theorem testBit_concat (lo hi : Nat) {m n : Nat} (h : m + n ≤ maxBits) (i : Nat) :
    (concat lo m hi n).testBit i =
      if i < m then lo.testBit i else decide (i - m < n) && hi.testBit (i - m) := by
  have hlo : truncate m lo < 2 ^ m := lt_weight (by omega) (truncate_lt m lo)
  rw [concat, weight_eq, Nat.mul_comm, Nat.testBit_two_pow_mul_add _ hlo, testBit_truncate,
    testBit_truncate, Nat.min_eq_left (by omega), Nat.min_eq_left (by omega)]
  split
  · rename_i hi
    simp [hi]
  · rfl

theorem slice_all {w a : Nat} (h : a < count w) : slice a 0 w = a := by
  rw [slice, Nat.sub_zero, Nat.shiftRight_zero, truncate_of_lt h]

theorem slice_slice (a base : Nat) {w lo hi : Nat} (hw : w ≤ maxBits) (hhi : hi ≤ w) :
    slice (slice a base (base + w)) lo hi = slice a (base + lo) (base + hi) := by
  apply Nat.eq_of_testBit_eq
  intro i
  rw [testBit_slice _ (by omega), testBit_slice _ (by omega), testBit_slice _ (by omega)]
  by_cases hi' : i < hi - lo
  · have h1 : lo + i < base + w - base := by omega
    have h2 : i < base + hi - (base + lo) := by omega
    simp only [hi', h1, h2, decide_true, Bool.true_and, Nat.add_assoc]
  · have h2 : ¬ i < base + hi - (base + lo) := by omega
    simp only [hi', h2, decide_false, Bool.false_and]

theorem slice_truncate {w lo hi : Nat} (hw : w ≤ maxBits) (hhi : hi ≤ w) (n : Nat) :
    slice (truncate w n) lo hi = slice n lo hi := by
  have hword : slice n 0 (0 + w) = truncate w n := by
    rw [slice, Nat.zero_add, Nat.sub_zero, Nat.shiftRight_zero]
  rw [← hword, slice_slice n 0 hw hhi, Nat.zero_add, Nat.zero_add]

/-- A slice inside the low word of a concatenation is a slice of that word. -/
theorem slice_concat_low (l h : Nat) {m n lo hi : Nat} (hmn : m + n ≤ maxBits) (hhi : hi ≤ m) :
    slice (concat l m h n) lo hi = slice l lo hi := by
  apply Nat.eq_of_testBit_eq
  intro i
  rw [testBit_slice _ (by omega), testBit_slice _ (by omega), testBit_concat _ _ hmn]
  by_cases hi' : i < hi - lo
  · have h1 : lo + i < m := by omega
    simp only [hi', h1, decide_true, Bool.true_and, if_true]
  · simp only [hi', decide_false, Bool.false_and]

/-- A slice inside the high word of a concatenation is a slice of that word. -/
theorem slice_concat_high (l h : Nat) {m n lo hi : Nat} (hmn : m + n ≤ maxBits) (hlo : m ≤ lo)
    (hhi : hi ≤ m + n) : slice (concat l m h n) lo hi = slice h (lo - m) (hi - m) := by
  apply Nat.eq_of_testBit_eq
  intro i
  rw [testBit_slice _ (by omega), testBit_slice _ (by omega), testBit_concat _ _ hmn]
  by_cases hi' : i < hi - lo
  · have h1 : ¬ lo + i < m := by omega
    have h2 : i < hi - m - (lo - m) := by omega
    have h3 : lo + i - m = lo - m + i := by omega
    have h4 : lo - m + i < n := by omega
    simp only [hi', h1, h2, h3, h4, decide_true, Bool.true_and, if_false]
  · have h2 : ¬ i < hi - m - (lo - m) := by omega
    simp only [hi', h2, decide_false, Bool.false_and]

theorem concat_slices (a start : Nat) {m n : Nat} (h : m + n ≤ maxBits) :
    concat (slice a start (start + m)) m (slice a (start + m) (start + m + n)) n =
      slice a start (start + (m + n)) := by
  apply Nat.eq_of_testBit_eq
  intro i
  rw [testBit_concat _ _ h, testBit_slice _ (by omega), testBit_slice _ (by omega),
    testBit_slice _ (by omega)]
  have e1 : start + m - start = m := by omega
  have e2 : start + m + n - (start + m) = n := by omega
  have e3 : start + (m + n) - start = m + n := by omega
  rw [e1, e2, e3]
  split
  · rename_i hi
    have h1 : i < m + n := by omega
    simp only [hi, h1, decide_true, Bool.true_and]
  · rename_i hi
    have h1 : start + m + (i - m) = start + i := by omega
    have h2 : (i - m < n) ↔ (i < m + n) := by omega
    simp only [h1, h2, ← Bool.and_assoc, Bool.and_self]

/-! ### Neutral, absorbing and equal operands -/

variable {w n : Nat}

theorem zero_add (h : n < count w) : binary .add w 0 n = n := by
  rw [binary, Nat.zero_add, truncate_of_lt h]

theorem add_zero (h : n < count w) : binary .add w n 0 = n := by
  rw [binary, Nat.add_zero, truncate_of_lt h]

theorem sub_self (h : n < count w) : binary .sub w n n = 0 := by
  have : n + (count w - n) = count w := by omega
  rw [binary, truncate_of_lt h, this, truncate, Nat.mod_self]

theorem sub_zero (h : n < count w) : binary .sub w n 0 = n := by
  have h0 : truncate w 0 = 0 := truncate_of_lt (count_pos w)
  rw [binary, h0, Nat.sub_zero, truncate, Nat.add_mod_right, Nat.mod_eq_of_lt h]

theorem zero_and (w n : Nat) : binary .and w 0 n = 0 := by
  rw [binary, Nat.zero_and, truncate_of_lt (count_pos w)]

theorem and_zero (w n : Nat) : binary .and w n 0 = 0 := by
  rw [binary, Nat.and_zero, truncate_of_lt (count_pos w)]

theorem and_max (h : n < count w) : binary .and w n (max w) = n := by
  rw [binary, max, count_eq, Nat.and_two_pow_sub_one_eq_mod, ← count_eq, Nat.mod_eq_of_lt h,
    truncate_of_lt h]

theorem max_and (h : n < count w) : binary .and w (max w) n = n := by
  rw [binary, Nat.and_comm]
  exact and_max h

theorem and_self (h : n < count w) : binary .and w n n = n := by
  rw [binary, Nat.and_self, truncate_of_lt h]

theorem zero_or (h : n < count w) : binary .or w 0 n = n := by
  rw [binary, Nat.zero_or, truncate_of_lt h]

theorem or_zero (h : n < count w) : binary .or w n 0 = n := by
  rw [binary, Nat.or_zero, truncate_of_lt h]

theorem or_max (h : n < count w) : binary .or w n (max w) = max w := by
  have hmax : max w < count w := Nat.sub_lt (count_pos w) Nat.one_pos
  have hor : n ||| max w < count w := Nat.or_lt_two_pow h hmax
  rw [binary, truncate_of_lt hor]
  exact Nat.le_antisymm (Nat.le_sub_one_of_lt hor) Nat.right_le_or

theorem max_or (h : n < count w) : binary .or w (max w) n = max w := by
  rw [binary, Nat.or_comm]
  exact or_max h

theorem or_self (h : n < count w) : binary .or w n n = n := by
  rw [binary, Nat.or_self, truncate_of_lt h]

theorem xor_self (w n : Nat) : binary .xor w n n = 0 := by
  rw [binary, Nat.xor_self, truncate_of_lt (count_pos w)]

theorem zero_xor (h : n < count w) : binary .xor w 0 n = n := by
  rw [binary, Nat.zero_xor, truncate_of_lt h]

theorem xor_zero (h : n < count w) : binary .xor w n 0 = n := by
  rw [binary, Nat.xor_zero, truncate_of_lt h]

theorem invert_invert (h : n < count w) : invert w (invert w n) = n := by
  rw [invert, truncate_of_lt (invert_lt w n), invert, truncate_of_lt h]
  omega

end Word
end Lockstep
