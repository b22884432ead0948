/-
# Intervals that are exact

An interval denotes the words that the numbers between its bounds leave. The
operations on intervals keep members, and those that move bounds only (`make`,
sums, differences and complements, and the test for zero) give no member
beyond the results on members: bounds on both sides of zero, and bounds that
are no words, stand for what they denote and nothing more.

Key definitions: `Interval.KeepsMembers`, `Interval.AddsNoMembers`.
Key theorems: `Interval.contains_iff_mem`, `Interval.mem_make_iff`, `Interval.mem_add_iff`,
`Interval.mem_sub_iff`, `Interval.mem_invert_iff`, `Interval.mem_isZero_iff`,
`Interval.abstracts`.
-/
import Lockstep.Proofs.Interval

namespace Lockstep
namespace Interval

variable {w n : Nat} {i j : Interval}

/-! ### Members of given bounds -/

theorem exists_mem {x : Int} (hlo : i.lo ≤ x) (hhi : x ≤ i.hi) :
    ∃ a : Nat, (a : Int) = x % modulus w ∧ i.Mem w a := by
  have hrem := Int.emod_nonneg x (Int.ne_of_gt (modulus_pos w))
  have ha : ((x % modulus w).toNat : Int) = x % modulus w := Int.toNat_of_nonneg hrem
  exact ⟨(x % modulus w).toNat, ha, x, hlo, hhi, ha⟩

/-- Bounds that span every word leave every word: the number that leaves it
follows the lower bound at less than two to the width. -/
theorem mem_of_span {lo hi : Int} (hw : w ≤ maxBits) (hspan : modulus w ≤ hi - lo)
    (hn : n < Word.count w) : Mem ⟨lo, hi⟩ w n := by
  have hM := modulus_pos w
  have hmod := modulus_of_le hw
  have hrem := Int.emod_nonneg (n - lo) (Int.ne_of_gt hM)
  have hrem' := Int.emod_lt_of_pos (n - lo) hM
  refine ⟨lo + (n - lo) % modulus w, ?_, ?_, ?_⟩
  · exact Int.le_add_of_nonneg_right hrem
  · show lo + (n - lo) % modulus w ≤ hi
    omega
  · rw [Int.add_emod_emod, show lo + (n - lo) = (n : Int) by omega,
      Int.emod_eq_of_lt (Int.natCast_nonneg n) (by omega)]

/-- **Moved bounds denote what the given ones do.** -/
theorem mem_make_iff (hw : w ≤ maxBits) {lo hi : Int} (hle : lo ≤ hi) :
    (make w lo hi).Mem w n ↔ Mem ⟨lo, hi⟩ w n := by
  constructor
  · intro h
    have hlt := h.lt hw
    unfold make at h
    split at h
    · rename_i htop
      exact mem_of_span hw (by omega) hlt
    · obtain ⟨x, hlo, hhi, hn⟩ := h
      refine ⟨x + hi / modulus w * modulus w, ?_, ?_, ?_⟩
      · exact Int.le_add_of_sub_right_le hlo
      · exact Int.add_le_of_le_sub_right hhi
      · rw [Int.add_mul_emod_self_right, hn]
  · rintro ⟨x, hlo, hhi, hn⟩
    exact mem_make hw hlo hhi hn

theorem contains_truncate (i : Interval) (w n : Nat) :
    i.contains w (Word.truncate w n) = i.contains w n := by
  unfold contains
  rw [Word.truncate_truncate]

/-- **A word is found exactly if it is a member.** -/
theorem contains_iff_mem (hw : w ≤ maxBits) (hn : n < Word.count w) :
    i.contains w n = true ↔ i.Mem w n := by
  have hmod := modulus_of_le hw
  have hword : (n : Int) % modulus w = n :=
    Int.emod_eq_of_lt (Int.natCast_nonneg _) (by omega)
  constructor
  · intro h
    simp only [contains, Word.truncate_of_lt hn, Bool.or_eq_true, Bool.and_eq_true,
      decide_eq_true_eq] at h
    rcases h with ⟨hlo, hhi⟩ | ⟨hlo, hhi⟩
    · refine ⟨_, hlo, hhi, ?_⟩
      rw [Int.add_comm, Int.add_mul_emod_self_right, hword]
    · refine ⟨_, hlo, hhi, ?_⟩
      rw [Int.add_comm, ← Int.add_assoc, Int.add_emod_right, Int.add_mul_emod_self_right, hword]
  · exact fun h => contains_of_mem h hn

/-! ### Operations on bounds -/

/-- A number between the sums of bounds is a sum of numbers between the bounds. -/
theorem exists_add_eq {x : Int} (hi : i.lo ≤ i.hi) (hj : j.lo ≤ j.hi) (hlo : i.lo + j.lo ≤ x)
    (hhi : x ≤ i.hi + j.hi) :
    ∃ y z : Int, (i.lo ≤ y ∧ y ≤ i.hi) ∧ (j.lo ≤ z ∧ z ≤ j.hi) ∧ y + z = x :=
  ⟨min i.hi (x - j.lo), x - min i.hi (x - j.lo), by omega, by omega, by omega⟩

theorem mem_add_iff (hw : w ≤ maxBits) (hi : i.lo ≤ i.hi) (hj : j.lo ≤ j.hi) :
    (binary .add w i j).Mem w n ↔
      ∃ a b, i.Mem w a ∧ j.Mem w b ∧ Word.binary .add w a b = n := by
  constructor
  · intro h
    obtain ⟨x, hlo, hhi, hn⟩ := (mem_make_iff hw (by omega)).1 h
    obtain ⟨y, z, ⟨hylo, hyhi⟩, ⟨hzlo, hzhi⟩, rfl⟩ := exists_add_eq hi hj hlo hhi
    obtain ⟨a, ha, hia⟩ := exists_mem (w := w) hylo hyhi
    obtain ⟨b, hb, hjb⟩ := exists_mem (w := w) hzlo hzhi
    exact ⟨a, b, hia, hjb, Int.natCast_inj.1 ((cast_add hw ha hb).trans hn.symm)⟩
  · rintro ⟨a, b, ha, hb, rfl⟩
    exact mem_add hw ha hb

theorem mem_sub_iff (hw : w ≤ maxBits) (hi : i.lo ≤ i.hi) (hj : j.lo ≤ j.hi) :
    (binary .sub w i j).Mem w n ↔
      ∃ a b, i.Mem w a ∧ j.Mem w b ∧ Word.binary .sub w a b = n := by
  constructor
  · intro h
    obtain ⟨x, hlo, hhi, hn⟩ := (mem_make_iff hw (by omega)).1 h
    dsimp only at hlo hhi
    -- a difference is a sum with the bounds of the second interval mirrored at zero
    obtain ⟨y, z, ⟨hylo, hyhi⟩, ⟨hzlo, hzhi⟩, rfl⟩ :=
      exists_add_eq (j := ⟨-j.hi, -j.lo⟩) (x := x) hi (Int.neg_le_neg hj)
        (by dsimp only; omega) (by dsimp only; omega)
    dsimp only at hzlo hzhi
    obtain ⟨a, ha, hia⟩ := exists_mem (w := w) hylo hyhi
    obtain ⟨b, hb, hjb⟩ := exists_mem (w := w) (i := j) (x := -z) (by omega) (by omega)
    have hdiff := cast_sub hw ha hb
    rw [Int.sub_neg, ← hn] at hdiff
    exact ⟨a, b, hia, hjb, Int.natCast_inj.1 hdiff⟩
  · rintro ⟨a, b, ha, hb, rfl⟩
    exact mem_sub hw ha hb

theorem mem_invert_iff (hw : w ≤ maxBits) (hi : i.lo ≤ i.hi) :
    (invert w i).Mem w n ↔ ∃ a, i.Mem w a ∧ Word.invert w a = n := by
  constructor
  · intro h
    obtain ⟨x, hlo, hhi, hn⟩ := (mem_make_iff hw (by omega)).1 h
    dsimp only at hlo hhi
    obtain ⟨a, ha, hia⟩ := exists_mem (w := w) (i := i) (x := -1 - x) (by omega) (by omega)
    have hinv := cast_invert hw ha
    rw [show -1 - (-1 - x) = x by omega, ← hn] at hinv
    exact ⟨a, hia, Int.natCast_inj.1 hinv⟩
  · rintro ⟨a, ha, rfl⟩
    exact mem_invert hw ha

/-! ### The test for zero -/

/-- An interval of several numbers has a member that is not zero: neighbours leave
different words. -/
theorem exists_mem_ne_zero (hpos : 0 < w) (h : i.lo < i.hi) : ∃ a, a ≠ 0 ∧ i.Mem w a := by
  obtain ⟨a, ha, hia⟩ := exists_mem (w := w) (Int.le_refl i.lo) (Int.le_of_lt h)
  by_cases hzero : a = 0
  · obtain ⟨b, hb, hib⟩ :=
      exists_mem (w := w) (i := i) (x := i.lo + 1) (by omega) (by omega)
    have hM : (1 : Int) < modulus w := by
      have := Nat.one_lt_two_pow (Nat.ne_of_gt hpos)
      rw [modulus, Word.weight_eq]
      omega
    refine ⟨b, ?_, hib⟩
    rintro rfl
    rw [Int.add_emod, ← ha, hzero, Int.emod_eq_of_lt (by decide) hM] at hb
    simp only [Int.natCast_zero, Int.zero_add, Int.emod_eq_of_lt Int.one_nonneg hM] at hb
    omega
  · exact ⟨a, hzero, hia⟩

theorem Mem.eq_of_exact {m : Nat} (hw : w ≤ maxBits) (h : (exact w m).Mem w n) :
    n = Word.truncate w m := by
  obtain ⟨x, hlo, hhi, hn⟩ := h
  have hmod := modulus_of_le hw
  have hlt := Word.truncate_lt w m
  simp only [exact] at hlo hhi
  obtain rfl : x = Word.truncate w m := by omega
  rw [Int.emod_eq_of_lt (by omega) (by omega)] at hn
  exact Int.natCast_inj.1 hn

theorem mem_isZero_iff (hpos : 0 < w) (hw : w ≤ maxBits) (hi : i.lo ≤ i.hi) :
    (isZero w i).Mem 1 n ↔ ∃ a, i.Mem w a ∧ Word.isZero w a = n := by
  have hone : 1 ≤ maxBits := by decide
  constructor
  · intro h
    have hbit : n < 2 := h.lt hone
    obtain ⟨a, -, hia⟩ := exists_mem (w := w) (Int.le_refl i.lo) hi
    have hmem := mem_isZero hw hia
    cases hs : i.singleton? w with
    | some m =>
      -- one word: the test gives one bit, which is that of the member at hand
      unfold isZero at h hmem
      rw [hs] at h hmem
      exact ⟨a, hia, (hmem.eq_of_exact hone).trans (h.eq_of_exact hone).symm⟩
    | none =>
      have hlt : i.lo < i.hi := by
        unfold singleton? at hs
        split at hs
        · cases hs
        · omega
      by_cases hzero : n = 0
      · obtain ⟨b, hb, hib⟩ := exists_mem_ne_zero hpos hlt
        refine ⟨b, hib, ?_⟩
        rw [Word.isZero, Word.truncate_of_lt (hib.lt hw), if_neg hb, hzero]
      · -- a bit that is set is a member only if zero was found
        have hcon : i.contains w 0 = true := by
          cases hc : i.contains w 0 with
          | true => rfl
          | false =>
            unfold isZero at h
            rw [hs, hc] at h
            exact absurd (h.eq_of_exact hone) hzero
        refine ⟨0, (contains_iff_mem hw (Word.count_pos w)).1 hcon, ?_⟩
        rw [Word.isZero, Word.truncate_of_lt (Word.count_pos w), if_pos rfl]
        omega
  · rintro ⟨a, ha, rfl⟩
    exact mem_isZero hw ha

/-! ### Abstraction -/

/-- At a width every operation on intervals keeps members: the operation on words takes
members of the operands to members of the result, and a hull has the members of both. -/
structure KeepsMembers (w : Nat) : Prop where
  binary : ∀ (op : BinaryOp) (i j : Interval) (a b : Nat), i.Mem w a → j.Mem w b →
    (binary op w i j).Mem w (Word.binary op w a b)
  invert : ∀ (i : Interval) (a : Nat), i.Mem w a → (invert w i).Mem w (Word.invert w a)
  slice : ∀ (i : Interval) (a lo hi : Nat), lo < hi → hi ≤ w → i.Mem w a →
    (slice w i lo hi).Mem (hi - lo) (Word.slice a lo hi)
  concat : ∀ (i j : Interval) (v a b : Nat), w + v ≤ maxBits → i.Mem w a → j.Mem v b →
    (concat i w j v).Mem (w + v) (Word.concat a w b v)
  ite : ∀ (c i j : Interval) (k a b : Nat), c.Mem 1 k → i.Mem w a → j.Mem w b →
    (ite w c i j).Mem w (Word.ite w k a b)
  isZero : ∀ (i : Interval) (a : Nat), i.Mem w a → (isZero w i).Mem 1 (Word.isZero w a)
  hull : ∀ (i j : Interval) (n : Nat), i.Mem w n ∨ j.Mem w n → (i.hull w j).Mem w n

/-- At a width words are found exactly if they are members, where of any number the low bits
count, and the intervals that come from moved bounds, sums, differences, complements and tests
for zero have no members beyond the results. -/
structure AddsNoMembers (w : Nat) : Prop where
  contains : ∀ (i : Interval) (n : Nat), n < Word.count w →
    (i.contains w n = true ↔ i.Mem w n)
  contains_low : ∀ (i : Interval) (n : Nat), i.contains w (Word.truncate w n) = i.contains w n
  make : ∀ (lo hi : Int) (n : Nat), lo ≤ hi →
    ((make w lo hi).Mem w n ↔ ∃ x : Int, lo ≤ x ∧ x ≤ hi ∧ (n : Int) = x % modulus w)
  add : ∀ (i j : Interval) (n : Nat), i.lo ≤ i.hi → j.lo ≤ j.hi →
    ((binary .add w i j).Mem w n ↔
      ∃ a b, i.Mem w a ∧ j.Mem w b ∧ Word.binary .add w a b = n)
  sub : ∀ (i j : Interval) (n : Nat), i.lo ≤ i.hi → j.lo ≤ j.hi →
    ((binary .sub w i j).Mem w n ↔
      ∃ a b, i.Mem w a ∧ j.Mem w b ∧ Word.binary .sub w a b = n)
  invert : ∀ (i : Interval) (n : Nat), i.lo ≤ i.hi →
    ((invert w i).Mem w n ↔ ∃ a, i.Mem w a ∧ Word.invert w a = n)
  isZero : ∀ (i : Interval) (n : Nat), i.lo ≤ i.hi →
    ((isZero w i).Mem 1 n ↔ ∃ a, i.Mem w a ∧ Word.isZero w a = n)

/-- **Intervals abstract words**, at every width that words have and whatever the bounds. -/
theorem abstracts (hpos : 0 < w) (hw : w ≤ maxBits) : KeepsMembers w ∧ AddsNoMembers w := by
  refine ⟨⟨?_, ?_, ?_, ?_, ?_, ?_, ?_⟩, ⟨?_, ?_, ?_, ?_, ?_, ?_, ?_⟩⟩
  · exact fun op _ _ _ _ hi hj => mem_binary hw op hi hj
  · exact fun _ _ hi => mem_invert hw hi
  · exact fun _ _ _ _ h1 h2 hi => mem_slice hw h1 h2 hi
  · exact fun _ _ _ _ _ hmax hi hj => mem_concat hmax hi hj
  · exact fun _ _ _ _ _ _ hc hi hj => mem_ite hw hc hi hj
  · exact fun _ _ hi => mem_isZero hw hi
  · exact fun _ _ _ h => mem_hull hw h
  · exact fun _ _ hn => contains_iff_mem hw hn
  · exact fun i n => contains_truncate i w n
  · exact fun _ _ _ hle => mem_make_iff hw hle
  · exact fun _ _ _ hi hj => mem_add_iff hw hi hj
  · exact fun _ _ _ hi hj => mem_sub_iff hw hi hj
  · exact fun _ _ hi => mem_invert_iff hw hi
  · exact fun _ _ hi => mem_isZero_iff hpos hw hi

/-- Bytes on both sides of zero: the sums of the bytes from 253 over zero to 5, as raw bounds
from -3 to 5, with the byte 250, as the raw number -6, are the bytes from 247 to 255. -/
theorem abstracts_wrapping :
    (0 < 8 ∧ 8 ≤ maxBits) ∧
      (∀ n, (binary .add 8 ⟨-3, 5⟩ ⟨-6, -6⟩).Mem 8 n ↔
        ∃ a b, Mem ⟨-3, 5⟩ 8 a ∧ Mem ⟨-6, -6⟩ 8 b ∧ Word.binary .add 8 a b = n) ∧
      binary .add 8 ⟨-3, 5⟩ ⟨-6, -6⟩ = ⟨247, 255⟩ :=
  ⟨⟨by decide, by decide⟩,
    fun n => (abstracts (by decide) (by decide)).2.add ⟨-3, 5⟩ ⟨-6, -6⟩ n (by decide) (by decide),
    by decide⟩

end Interval
end Lockstep
