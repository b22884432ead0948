/-
# Interval operations stay normal and in range

On normal intervals an operation computes only numbers between `-2 ^ 34` and
`2 ^ 34`, and its result is normal at its own width. A normal interval that
misses a word is determined by its members: its bounds are the ends of the one
run of words that it denotes.

Key definitions: `Interval.Yields`, `Interval.Closed`.
Key theorems: `Interval.Normal.eq_of_mem`, `Interval.closed`.
-/
import Mathlib.Data.Set.Card
import Lockstep.Proofs.Interval.Checked

namespace Lockstep
namespace Interval

variable {w v n : Nat} {i j : Interval}

/-! ### Members determine the bounds -/

/-- Two numbers that are less than two to the width apart leave different words. -/
theorem emod_modulus_ne {x y : Int} (h : x < y) (hnear : y - x < modulus w) :
    y % modulus w ≠ x % modulus w := by
  intro heq
  have hdiff := Int.emod_eq_emod_iff_emod_sub_eq_zero.1 heq
  rw [Int.emod_eq_of_lt (by omega) hnear] at hdiff
  omega

/-- Each number between the bounds leaves what a number between the other bounds leaves. -/
theorem exists_emod_eq (h : ∀ n, i.Mem w n → j.Mem w n) {x : Int} (hlo : i.lo ≤ x)
    (hhi : x ≤ i.hi) : ∃ y, j.lo ≤ y ∧ y ≤ j.hi ∧ x % modulus w = y % modulus w := by
  obtain ⟨a, ha, hia⟩ := exists_mem (w := w) hlo hhi
  obtain ⟨y, hylo, hyhi, hy⟩ := h a hia
  exact ⟨y, hylo, hyhi, ha.symm.trans hy⟩

/-- Where a word is missing, the number after the upper bound is not as far from the lower bound
as to leave the same word. -/
theorem span_lt_of_not_mem (hn : n < Word.count w) (hw : w ≤ maxBits) (hmiss : ¬ i.Mem w n) :
    i.hi + 1 - i.lo < modulus w := by
  by_contra hfull
  have hM := modulus_pos w
  have hmod := modulus_of_le hw
  have hrem := Int.emod_nonneg (n - i.lo) (Int.ne_of_gt hM)
  have hrem' := Int.emod_lt_of_pos (n - i.lo) hM
  refine hmiss ⟨i.lo + (n - i.lo) % modulus w, by omega, by omega, ?_⟩
  rw [Int.add_emod_emod, show i.lo + (n - i.lo) = (n : Int) by omega,
    Int.emod_eq_of_lt (Int.natCast_nonneg n) (by omega)]

/-- **A normal interval that misses a word is determined by its members**: the upper bound is the
one member whose successor is no member, and the lower bound the one whose predecessor is none. -/
theorem Normal.eq_of_mem (hw : w ≤ maxBits) (hi : i.Normal w) (hj : j.Normal w)
    (h : ∀ n, i.Mem w n ↔ j.Mem w n) (hn : n < Word.count w) (hmiss : ¬ i.Mem w n) : i = j := by
  have hgap := span_lt_of_not_mem hn hw hmiss
  have hsame : i.hi = j.hi := by
    obtain ⟨y, hylo, hyhi, hy⟩ := exists_emod_eq (fun n => (h n).1) hi.le (Int.le_refl i.hi)
    have hend : y = j.hi := by
      by_contra hne
      obtain ⟨z, hzlo, hzhi, hz⟩ := exists_emod_eq (fun n => (h n).2) (x := y + 1)
        (by omega) (by omega)
      refine emod_modulus_ne (w := w) (x := z) (y := i.hi + 1) (by omega) (by omega) ?_
      rw [← hz, Int.add_emod i.hi, hy, ← Int.add_emod]
    rw [hend, Int.emod_eq_of_lt hi.nonneg hi.lt, Int.emod_eq_of_lt hj.nonneg hj.lt] at hy
    exact hy
  obtain ⟨y, hylo, hyhi, hy⟩ := exists_emod_eq (fun n => (h n).1) (Int.le_refl i.lo) hi.le
  have hstart : y = j.lo := by
    by_contra hne
    obtain ⟨z, hzlo, hzhi, hz⟩ := exists_emod_eq (fun n => (h n).2) (x := y - 1)
      (by omega) (by omega)
    refine emod_modulus_ne (w := w) (x := i.lo - 1) (y := z) (by omega) (by omega) ?_
    rw [← hz, Int.sub_emod i.lo, hy, ← Int.sub_emod]
  subst hstart
  have hle := hi.le
  have hspan := hi.span
  have hspan' := hj.span
  have hlow : i.lo = j.lo := by
    rcases Int.lt_trichotomy i.lo j.lo with hlt | heq | hlt
    · exact absurd hy.symm (emod_modulus_ne hlt (by omega))
    · exact heq
    · exact absurd hy (emod_modulus_ne hlt (by omega))
  exact Interval.ext hlow hsame

theorem exists_not_mem (hw : w ≤ maxBits) (h : {n | i.Mem w n}.ncard < Word.count w) :
    ∃ n < Word.count w, ¬ i.Mem w n := by
  by_contra! hall
  have hwords : {n | i.Mem w n} = (Finset.range (Word.count w) : Set Nat) := by
    ext n
    rw [Finset.mem_coe, Finset.mem_range]
    exact ⟨fun hn => hn.lt hw, hall n⟩
  rw [hwords, Set.ncard_coe_finset, Finset.card_range] at h
  exact Nat.lt_irrefl _ h

/-! ### Closure -/

/-- Does a checked run end with a result, and is this result normal at the width? -/
def Yields (w : Nat) (run : Option Interval) (i : Interval) : Prop := run = some i ∧ i.Normal w

/-- At a width normal intervals are closed under the operations, which compute only numbers
between `-2 ^ 34` and `2 ^ 34`; bounds of any size that are moved without leaving 64 bits become
normal; and a normal interval of fewer members than there are words is the only one with these
members. -/
structure Closed (w : Nat) : Prop where
  exact : ∀ n, Yields w (Checked.exact narrow w n) (exact w n)
  top : Yields w (Checked.top narrow w) (top w)
  hull : ∀ i j : Interval, i.Normal w → j.Normal w →
    Yields w (Checked.hull narrow i w j) (i.hull w j)
  binary : ∀ (op : BinaryOp) (i j : Interval), i.Normal w → j.Normal w →
    Yields w (Checked.binary narrow op w i j) (binary op w i j)
  invert : ∀ i : Interval, i.Normal w → Yields w (Checked.invert narrow w i) (invert w i)
  slice : ∀ (i : Interval) (lo hi : Nat), lo < hi → hi ≤ w → i.Normal w →
    Yields (hi - lo) (Checked.slice narrow w i lo hi) (slice w i lo hi)
  concat : ∀ (i j : Interval) (v : Nat), w + v ≤ maxBits → i.Normal w → j.Normal v →
    Yields (w + v) (Checked.concat narrow i w j v) (concat i w j v)
  ite : ∀ c i j : Interval, c.Normal 1 → i.Normal w → j.Normal w →
    Yields w (Checked.ite narrow w c i j) (ite w c i j)
  isZero : ∀ i : Interval, i.Normal w → Yields 1 (Checked.isZero narrow w i) (isZero w i)
  make : ∀ (lo hi : Int) (i : Interval), Checked.make long w lo hi = some i →
    i = make w lo hi ∧ i.Normal w
  ext : ∀ i j : Interval, i.Normal w → j.Normal w → (∀ n, i.Mem w n ↔ j.Mem w n) →
    {n | i.Mem w n}.ncard < 2 ^ w → i = j

/-- **Normal intervals are closed under the operations, without overflow.** -/
theorem closed (hw : w ≤ maxBits) : Closed w where
  exact n := ⟨Checked.exact_eq roomy_narrow hw n, normal_exact hw n⟩
  top := ⟨Checked.top_eq roomy_narrow hw, normal_top hw⟩
  hull i j hi hj :=
    ⟨Checked.hull_eq roomy_narrow hw (hi.within hw) (hj.within hw), normal_make hw _ _⟩
  binary op i j hi hj :=
    ⟨Checked.binary_eq roomy_narrow hw op (hi.within hw) (hj.within hw), normal_binary hw op i j⟩
  invert i hi := ⟨Checked.invert_eq roomy_narrow hw (hi.within hw), normal_make hw _ _⟩
  slice i lo hi _ hhi h :=
    ⟨Checked.slice_eq roomy_narrow hw hhi (h.within hw), normal_slice hw hhi h⟩
  concat i j v hv hi hj :=
    ⟨Checked.concat_eq roomy_narrow hv hi.le hj.le, normal_concat hv i j⟩
  ite c i j _ hi hj :=
    ⟨Checked.ite_eq roomy_narrow hw c (hi.within hw) (hj.within hw), normal_ite hw c hi hj⟩
  isZero i hi := ⟨Checked.isZero_eq roomy_narrow hw (hi.within hw), normal_isZero w i⟩
  make lo hi i h := by
    obtain rfl := Checked.only_make _ _ _ _ _ h
    exact ⟨rfl, normal_make hw lo hi⟩
  ext i j hi hj h hfew := by
    have hcount : Word.count w = 2 ^ w := by rw [Word.count_of_le hw, Word.weight_eq]
    obtain ⟨n, hn, hmiss⟩ := exists_not_mem hw (hcount ▸ hfew)
    exact hi.eq_of_mem hw hj h hn hmiss

/-- Bytes through zero: the differences of the bytes from 253 over zero to 5 and those from 250
over zero to 7 go through zero again; the low half of a short range of 16 bits has the same bounds
at 8 bits; and bounds far from zero are moved without leaving 64 bits. -/
theorem closed_straddling :
    (8 ≤ maxBits ∧ 16 ≤ maxBits ∧ Normal 8 ⟨-3, 5⟩ ∧ Normal 8 ⟨-6, 7⟩ ∧ Normal 16 ⟨3, 200⟩ ∧
      Checked.make long 8 4611686018427388154 4611686018427388162 = some ⟨-6, 2⟩) ∧
    Yields 8 (Checked.binary narrow .sub 8 ⟨-3, 5⟩ ⟨-6, 7⟩) ⟨-10, 11⟩ ∧
    Yields 8 (Checked.slice narrow 16 ⟨3, 200⟩ 0 8) ⟨3, 200⟩ ∧
    Normal 8 ⟨-6, 2⟩ := by
  have hleft : Normal 8 ⟨-3, 5⟩ := ⟨by decide, by decide, by decide, by decide⟩
  have hright : Normal 8 ⟨-6, 7⟩ := ⟨by decide, by decide, by decide, by decide⟩
  have hwide : Normal 16 ⟨3, 200⟩ := ⟨by decide, by decide, by decide, by decide⟩
  have hfar : Checked.make long 8 4611686018427388154 4611686018427388162 = some ⟨-6, 2⟩ := by
    decide +kernel
  exact ⟨⟨by decide, by decide, hleft, hright, hwide, hfar⟩,
    (closed (by decide)).binary .sub _ _ hleft hright,
    (closed (by decide)).slice _ 0 8 (by decide) (by decide) hwide,
    ((closed (by decide)).make _ _ _ hfar).2⟩

end Interval
end Lockstep
