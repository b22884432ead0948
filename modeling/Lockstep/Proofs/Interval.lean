/-
# Intervals over-approximate

If a word is a member of an interval, then the result of an operation on the
word is a member of the result of the operation on the interval. The bounds
may be any integers: a word is a member by any number between the bounds that
leaves it modulo two to the width.

Key theorems: `Interval.mem_make`, `Interval.mem_hull`, `Interval.mem_binary`,
`Interval.mem_invert`, `Interval.mem_slice`, `Interval.mem_concat`, `Interval.mem_ite`,
`Interval.contains_of_mem`, `Interval.mem_isZero`.
-/
import Mathlib.Algebra.Group.Int.Defs
import Lockstep.Interval
import Lockstep.Proofs.Word

namespace Lockstep
namespace Interval

variable {w a b c n : Nat} {i j k : Interval}

/-! ### Members -/

theorem modulus_pos (bits : Nat) : 0 < modulus bits := Int.natCast_pos.2 (Word.weight_pos bits)

theorem modulus_of_le (hw : w ≤ maxBits) : modulus w = Word.count w := by
  rw [modulus, Word.count_of_le hw]

theorem maxWord_eq (hw : w ≤ maxBits) : maxWord w = modulus w - 1 := by
  have := Word.count_pos w
  rw [modulus_of_le hw, maxWord, Word.max]
  omega

theorem modulus_le (hw : w ≤ maxBits) : modulus w ≤ 2 ^ 32 := by
  have h : 2 ^ w ≤ 2 ^ maxBits := Nat.pow_le_pow_right (by decide) hw
  rw [modulus, Word.weight_eq]
  exact_mod_cast h

theorem Mem.lt (hw : w ≤ maxBits) (h : i.Mem w n) : n < Word.count w := by
  obtain ⟨x, -, -, hn⟩ := h
  have := Int.emod_lt_of_pos x (modulus_pos w)
  rw [← hn, modulus_of_le hw] at this
  omega

theorem mem_of_le (hw : w ≤ maxBits) (h : n < Word.count w) (hlo : i.lo ≤ n) (hhi : n ≤ i.hi) :
    i.Mem w n := by
  refine ⟨n, hlo, hhi, (Int.emod_eq_of_lt (Int.natCast_nonneg n) ?_).symm⟩
  rw [modulus_of_le hw]
  omega

theorem mem_top (hw : w ≤ maxBits) (h : n < Word.count w) : (top w).Mem w n := by
  have hmax := maxWord_eq hw
  rw [modulus_of_le hw] at hmax
  refine mem_of_le hw h (Int.natCast_nonneg n) ?_
  show (n : Int) ≤ maxWord w
  omega

theorem mem_exact (hw : w ≤ maxBits) (n : Nat) : (exact w n).Mem w (Word.truncate w n) :=
  mem_of_le hw (Word.truncate_lt w n) (Int.le_refl _) (Int.le_refl _)

theorem mem_exact_of_lt (hw : w ≤ maxBits) (h : n < Word.count w) : (exact w n).Mem w n := by
  have := mem_exact hw n
  rwa [Word.truncate_of_lt h] at this

/-- What a number between bounds leaves is a member of the interval with these bounds. -/
theorem mem_make (hw : w ≤ maxBits) {lo hi x : Int} (hlo : lo ≤ x) (hhi : x ≤ hi)
    (hn : (n : Int) = x % modulus w) : (make w lo hi).Mem w n := by
  unfold make
  split
  · have hmem : Mem ⟨x, x⟩ w n := ⟨x, Int.le_refl x, Int.le_refl x, hn⟩
    exact mem_top hw (hmem.lt hw)
  · refine ⟨x - hi / modulus w * modulus w, ?_, ?_, ?_⟩
    · exact Int.sub_le_sub_right hlo _
    · exact Int.sub_le_sub_right hhi _
    · rw [Int.sub_mul_emod_self_right, hn]

theorem mem_hull (hw : w ≤ maxBits) (h : i.Mem w n ∨ j.Mem w n) : (i.hull w j).Mem w n := by
  rcases h with ⟨x, hlo, hhi, hn⟩ | ⟨x, hlo, hhi, hn⟩
  · exact mem_make hw (by omega) (by omega) hn
  · exact mem_make hw (by omega) (by omega) hn

theorem singleton?_eq (hw : w ≤ maxBits) (h : i.Mem w n) {m : Nat} (hm : i.singleton? w = some m) :
    m = n := by
  obtain ⟨x, hlo, hhi, hn⟩ := h
  unfold singleton? at hm
  split at hm
  · rename_i heq
    obtain rfl : x = i.lo := by omega
    rw [← modulus_of_le hw, ← hn] at hm
    exact (Option.some.inj hm).symm
  · cases hm

/-- A member of a range that does not go through zero lies between the bounds. -/
theorem le_of_isCanonical (hw : w ≤ maxBits) (hi : i.isCanonical w = true) (h : i.Mem w n) :
    0 ≤ i.lo ∧ i.lo ≤ n ∧ (n : Int) ≤ i.hi ∧ i.hi < modulus w := by
  obtain ⟨x, hlo, hhi, hn⟩ := h
  simp only [isCanonical, Bool.and_eq_true, decide_eq_true_eq] at hi
  have hmax := maxWord_eq hw
  rw [Int.emod_eq_of_lt (by omega) (by omega)] at hn
  omega

/-- A member is found: the number that leaves it, or one of the two that
follow the lower bound, lies between the bounds. -/
theorem contains_of_mem (h : i.Mem w n) (hn : n < Word.count w) : i.contains w n = true := by
  obtain ⟨x, hlo, hhi, hx⟩ := h
  have hM := modulus_pos w
  have hbase := Int.mul_ediv_add_emod i.lo (modulus w)
  have hrem := Int.emod_nonneg i.lo (Int.ne_of_gt hM)
  have hrem' := Int.emod_lt_of_pos i.lo hM
  have hx' := Int.mul_ediv_add_emod x (modulus w)
  have hq : i.lo / modulus w ≤ x / modulus w := Int.ediv_le_ediv hM hlo
  simp only [contains, Word.truncate_of_lt hn, Bool.or_eq_true, Bool.and_eq_true,
    decide_eq_true_eq]
  have hcomm := Int.mul_comm (i.lo / modulus w) (modulus w)
  have hpos := Int.emod_nonneg x (Int.ne_of_gt hM)
  rcases Int.lt_or_eq_of_le hq with hlt | heq
  · have hstep : modulus w * (i.lo / modulus w + 1) ≤ modulus w * (x / modulus w) :=
      Int.mul_le_mul_of_nonneg_left hlt (Int.le_of_lt hM)
    rw [Int.mul_add, Int.mul_one] at hstep
    right
    omega
  · rw [← heq] at hx'
    left
    omega

/-! ### Two-operand operations -/

theorem cast_truncate (hw : w ≤ maxBits) (n : Nat) :
    (Word.truncate w n : Int) = n % modulus w := by
  rw [Word.truncate, modulus_of_le hw, Int.natCast_emod]

/-- A sum of words is what the sum of numbers that leave them leaves. -/
theorem cast_add (hw : w ≤ maxBits) {x y : Int} (ha : (a : Int) = x % modulus w)
    (hb : (b : Int) = y % modulus w) : (Word.binary .add w a b : Int) = (x + y) % modulus w := by
  rw [Word.binary, cast_truncate hw, Int.natCast_add, ha, hb, ← Int.add_emod]

theorem cast_sub (hw : w ≤ maxBits) {x y : Int} (ha : (a : Int) = x % modulus w)
    (hb : (b : Int) = y % modulus w) : (Word.binary .sub w a b : Int) = (x - y) % modulus w := by
  have hmod := modulus_of_le hw
  have hrem := Int.emod_lt_of_pos y (modulus_pos w)
  have hlt : b < Word.count w := by omega
  have hsum : ((a + (Word.count w - b) : Nat) : Int) =
      x % modulus w - y % modulus w + modulus w := by omega
  rw [Word.binary, Word.truncate_of_lt hlt, cast_truncate hw, hsum, Int.add_emod_right,
    ← Int.sub_emod]

/-- The complement of a word is what `-1 - x` leaves if the word is what `x` leaves. -/
theorem cast_invert (hw : w ≤ maxBits) {x : Int} (ha : (a : Int) = x % modulus w) :
    (Word.invert w a : Int) = (-1 - x) % modulus w := by
  have hmod := modulus_of_le hw
  have hrem := Int.emod_nonneg x (Int.ne_of_gt (modulus_pos w))
  have hrem' := Int.emod_lt_of_pos x (modulus_pos w)
  have hx := Int.mul_ediv_add_emod x (modulus w)
  have hinv : (Word.invert w a : Int) = modulus w - 1 - a := by
    rw [Word.invert, Word.truncate_of_lt (by omega)]
    omega
  have hsum : -1 - x = (modulus w - 1 - a) + modulus w * (-(x / modulus w) - 1) := by
    rw [Int.mul_sub, Int.mul_neg, Int.mul_one]
    omega
  rw [hinv, hsum, Int.add_mul_emod_self_left, Int.emod_eq_of_lt (by omega) (by omega)]

theorem mem_add (hw : w ≤ maxBits) (hi : i.Mem w a) (hj : j.Mem w b) :
    (binary .add w i j).Mem w (Word.binary .add w a b) := by
  obtain ⟨x, hxlo, hxhi, ha⟩ := hi
  obtain ⟨y, hylo, hyhi, hb⟩ := hj
  exact mem_make hw (x := x + y) (by omega) (by omega) (cast_add hw ha hb)

theorem mem_sub (hw : w ≤ maxBits) (hi : i.Mem w a) (hj : j.Mem w b) :
    (binary .sub w i j).Mem w (Word.binary .sub w a b) := by
  obtain ⟨x, hxlo, hxhi, ha⟩ := hi
  obtain ⟨y, hylo, hyhi, hb⟩ := hj
  exact mem_make hw (x := x - y) (by omega) (by omega) (cast_sub hw ha hb)

/-- A bitwise operation keeps members if its bounds do for words between the bounds. -/
theorem mem_bitwise (hw : w ≤ maxBits) (op : BinaryOp) (hi : i.Mem w a) (hj : j.Mem w b)
    {lo hi' : Int}
    (h : 0 ≤ i.lo → i.lo ≤ a → (a : Int) ≤ i.hi → 0 ≤ j.lo → j.lo ≤ b → (b : Int) ≤ j.hi →
      lo ≤ Word.binary op w a b ∧ Word.binary op w a b ≤ hi') :
    (bitwise op w i j lo hi').Mem w (Word.binary op w a b) := by
  have hlt := Word.binary_lt op w a b
  unfold bitwise
  split
  · rename_i m n hm hn
    rw [singleton?_eq hw hi hm, singleton?_eq hw hj hn]
    exact mem_exact_of_lt hw hlt
  · split
    · rename_i hcan
      obtain ⟨hci, hcj⟩ := Bool.and_eq_true_iff.1 hcan
      obtain ⟨hi0, hi1, hi2, -⟩ := le_of_isCanonical hw hci hi
      obtain ⟨hj0, hj1, hj2, -⟩ := le_of_isCanonical hw hcj hj
      obtain ⟨hlo, hhi⟩ := h hi0 hi1 hi2 hj0 hj1 hj2
      have hmod := modulus_of_le hw
      have hmax := maxWord_eq hw
      refine mem_make hw hlo (by omega) (Int.emod_eq_of_lt (by omega) (by omega)).symm
    · exact mem_top hw hlt

/-- Bits below those of a bound fill up to a number of set bits only. -/
theorem lt_fillBelow (bound : Int) (ha : (a : Int) ≤ bound) (hb : (b : Int) ≤ bound)
    {f : Nat → Nat → Nat} (hzero : f 0 0 = 0)
    (h : ∀ {k}, a < 2 ^ k → b < 2 ^ k → f a b < 2 ^ k) : (f a b : Int) ≤ fillBelow bound := by
  unfold fillBelow
  split
  · obtain rfl : a = 0 := by omega
    obtain rfl : b = 0 := by omega
    rw [hzero]
    exact Int.le_refl _
  · have hlog := Nat.lt_log2_self (n := bound.toNat)
    have := h (k := bound.toNat.log2 + 1) (by omega) (by omega)
    rw [modulus, Word.weight_eq]
    omega

/-- **Two-operand operations keep members.** -/
theorem mem_binary (hw : w ≤ maxBits) (op : BinaryOp) (hi : i.Mem w a) (hj : j.Mem w b) :
    (binary op w i j).Mem w (Word.binary op w a b) := by
  have ha := hi.lt hw
  have hb := hj.lt hw
  cases op with
  | add => exact mem_add hw hi hj
  | sub => exact mem_sub hw hi hj
  | and =>
    refine mem_bitwise hw .and hi hj fun _ _ hai _ _ hbj => ?_
    have hle : a &&& b ≤ a := Nat.and_le_left
    have hle' : a &&& b ≤ b := Nat.and_le_right
    rw [Word.binary, Word.truncate_of_lt (by omega)]
    omega
  | or =>
    refine mem_bitwise hw .or hi hj fun _ hlo hai _ hlo' hbj => ?_
    have hle : a ≤ a ||| b := Nat.left_le_or
    have hle' : b ≤ a ||| b := Nat.right_le_or
    have hfill := lt_fillBelow (max i.hi j.hi) (f := (· ||| ·)) (by omega) (by omega)
      rfl (Nat.or_lt_two_pow (x := a) (y := b))
    rw [Word.binary, Word.truncate_of_lt (Nat.or_lt_two_pow ha hb)]
    exact ⟨by omega, hfill⟩
  | xor =>
    refine mem_bitwise hw .xor hi hj fun _ _ hai _ _ hbj => ?_
    have hfill := lt_fillBelow (max i.hi j.hi) (f := (· ^^^ ·)) (by omega) (by omega)
      rfl (Nat.xor_lt_two_pow (x := a) (y := b))
    rw [Word.binary, Word.truncate_of_lt (Nat.xor_lt_two_pow ha hb)]
    exact ⟨Int.natCast_nonneg _, hfill⟩

theorem mem_invert (hw : w ≤ maxBits) (hi : i.Mem w a) :
    (invert w i).Mem w (Word.invert w a) := by
  obtain ⟨x, hlo, hhi, ha⟩ := hi
  exact mem_make hw (x := -1 - x) (by omega) (by omega) (cast_invert hw ha)

/-! ### Slices, concatenations and choices -/

theorem mem_slice {lo hi : Nat} (hw : w ≤ maxBits) (h1 : lo < hi) (h2 : hi ≤ w)
    (hi' : i.Mem w a) : (slice w i lo hi).Mem (hi - lo) (Word.slice a lo hi) := by
  have hle : hi - lo ≤ maxBits := by omega
  have hlt := Word.slice_lt a lo hi
  unfold slice
  split
  · rename_i m hm
    rw [singleton?_eq hw hi' hm]
    exact mem_exact hle _
  · split
    · rename_i hcan
      obtain ⟨hlo0, hlo1, hhi1, -⟩ := le_of_isCanonical hw hcan hi'
      split
      · rename_i hlow
        obtain ⟨rfl, hfit⟩ := hlow
        have hmax := maxWord_eq hle
        have hmod := modulus_of_le hle
        have ha : a < Word.count (hi - 0) := by omega
        rw [Word.slice, Nat.shiftRight_zero, Word.truncate_of_lt ha]
        exact mem_of_le hle ha hlo1 hhi1
      · split
        · rename_i hhigh
          subst hhigh
          have hdiv : ((a >>> lo : Nat) : Int) = a / modulus lo := by
            rw [Nat.shiftRight_eq_div_pow, Int.natCast_ediv, modulus, Word.weight_eq]
          have hpos := modulus_pos lo
          refine mem_make hle (Int.ediv_le_ediv hpos hlo1) (Int.ediv_le_ediv hpos hhi1) ?_
          rw [Word.slice, cast_truncate hle, hdiv]
        · exact mem_top hle hlt
    · exact mem_top hle hlt

/-- A word that is moved up to make room for another stays below two to both widths. -/
theorem mul_modulus_le {m : Nat} {x : Int} (h : x < modulus n) :
    x * modulus m ≤ modulus (m + n) - modulus m := by
  have hmul := Int.mul_le_mul_of_nonneg_right (show x ≤ modulus n - 1 by omega)
    (Int.le_of_lt (modulus_pos m))
  have hsum : modulus (m + n) = modulus n * modulus m := by
    rw [modulus, modulus, modulus, Word.weight_add, Nat.mul_comm, Int.natCast_mul]
  rw [Int.sub_mul, Int.one_mul, ← hsum] at hmul
  exact hmul

theorem moveUp_eq {m : Nat} {x : Int} (hw : m + n ≤ maxBits) (h0 : 0 ≤ x) (hx : x < modulus n) :
    moveUp x m = x * modulus m := by
  have hroom := mul_modulus_le (m := m) hx
  have hnonneg := Int.mul_nonneg h0 (Int.le_of_lt (modulus_pos m))
  have hpos := modulus_pos m
  have hle := modulus_le hw
  exact Int.bmod_eq_of_le (by omega) (by omega)

theorem mem_concat {m : Nat} (hw : m + n ≤ maxBits) (hi : i.Mem m a) (hj : j.Mem n b) :
    (concat i m j n).Mem (m + n) (Word.concat a m b n) := by
  have hm : m ≤ maxBits := by omega
  have hn : n ≤ maxBits := by omega
  have hlt := Word.concat_lt a b hw
  have hmod := modulus_of_le hw
  unfold concat
  split
  · rename_i hcan
    obtain ⟨hci, hcj⟩ := Bool.and_eq_true_iff.1 hcan
    obtain ⟨-, hi1, hi2, -⟩ := le_of_isCanonical hm hci hi
    obtain ⟨hj0, hj1, hj2, hjlt⟩ := le_of_isCanonical hn hcj hj
    rw [moveUp_eq hw hj0 (by omega), moveUp_eq hw (by omega) hjlt]
    have hcat : (Word.concat a m b n : Int) = b * modulus m + a := by
      rw [Word.concat, Word.truncate_of_lt (hj.lt hn), Word.truncate_of_lt (hi.lt hm), modulus,
        Int.natCast_add, Int.natCast_mul]
    have hpos := Int.le_of_lt (modulus_pos m)
    have hlo := Int.mul_le_mul_of_nonneg_right hj1 hpos
    have hhi := Int.mul_le_mul_of_nonneg_right hj2 hpos
    refine mem_make hw (x := Word.concat a m b n) (by omega) (by omega) ?_
    exact (Int.emod_eq_of_lt (Int.natCast_nonneg _) (by omega)).symm
  · exact mem_top hw hlt

theorem mem_ite (hw : w ≤ maxBits) (hc : i.Mem 1 c) (ht : j.Mem w a) (hf : k.Mem w b) :
    (ite w i j k).Mem w (Word.ite w c a b) := by
  have hone : 1 ≤ maxBits := by decide
  have hbit : c < 2 := hc.lt hone
  have hta := Word.truncate_of_lt (ht.lt hw)
  have hfb := Word.truncate_of_lt (hf.lt hw)
  unfold ite Word.ite
  split
  · rename_i hs
    obtain rfl := singleton?_eq hone hc hs
    rw [if_pos rfl, hta]
    exact ht
  · rename_i m hne hs
    obtain rfl := singleton?_eq hone hc hs
    have hzero : ¬ m % 2 = 1 := by
      intro h
      exact hne (by omega)
    rw [if_neg hzero, hfb]
    exact hf
  · refine mem_hull hw ?_
    split
    · rw [hta]
      exact .inl ht
    · rw [hfb]
      exact .inr hf

theorem mem_isZero (hw : w ≤ maxBits) (hi : i.Mem w a) : (isZero w i).Mem 1 (Word.isZero w a) := by
  have hone : 1 ≤ maxBits := by decide
  unfold isZero Word.isZero
  rw [Word.truncate_of_lt (hi.lt hw)]
  split
  · rename_i m hm
    rw [singleton?_eq hw hi hm]
    refine mem_exact_of_lt hone ?_
    split <;> decide
  · split
    · refine mem_top hone ?_
      split <;> decide
    · rename_i hcon
      have hne : a ≠ 0 := by
        rintro rfl
        exact hcon (contains_of_mem hi (Word.count_pos w))
      rw [if_neg hne]
      exact mem_exact_of_lt hone (by decide)

end Interval
end Lockstep
