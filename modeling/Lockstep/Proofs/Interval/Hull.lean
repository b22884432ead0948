/-
# Ranges around several ranges

The hull of normal intervals, built one after another, is the normal form of
the bounds around them all, in whichever order they come and also where it
collapses to `top` on the way. So a hull around some of them denotes a part of
what the hull around all of them denotes.

Key definitions: `Interval.Normal`, `Interval.Around`.
Key theorems: `Interval.normal_make`, `Interval.Around.hull`, `Interval.Around.mem_mono`.
-/
import Lockstep.Proofs.Interval.Exact

namespace Lockstep
namespace Interval

variable {w n : Nat} {i j : Interval}

/-- Is the interval one that `make` gives: are its bounds in order, closer than two to the width,
and is the upper one a word? -/
structure Normal (w : Nat) (i : Interval) : Prop where
  le : i.lo ≤ i.hi
  span : i.hi - i.lo < modulus w
  nonneg : 0 ≤ i.hi
  lt : i.hi < modulus w

theorem normal_make (hw : w ≤ maxBits) (lo hi : Int) : (make w lo hi).Normal w := by
  have hpos := modulus_pos w
  unfold make
  by_cases htop : hi < lo ∨ modulus w ≤ hi - lo
  · rw [if_pos htop]
    have hmax := maxWord_eq hw
    refine ⟨?_, ?_, ?_, ?_⟩ <;> simp only [top, hmax] <;> omega
  · have hdiv : hi - hi / modulus w * modulus w = hi % modulus w := by
      rw [Int.emod_def, Int.mul_comm]
    have hnonneg := Int.emod_nonneg hi (Int.ne_of_gt hpos)
    have hlt := Int.emod_lt_of_pos hi hpos
    rw [if_neg htop]
    refine ⟨?_, ?_, ?_, ?_⟩ <;> simp only [hdiv] <;> omega

/-- Bounds of which the upper one is a word stay as they are, or they collapse. -/
theorem make_of_lt {lo hi : Int} (h0 : 0 ≤ hi) (hlt : hi < modulus w) :
    make w lo hi = if hi < lo ∨ modulus w ≤ hi - lo then top w else ⟨lo, hi⟩ := by
  unfold make
  simp only [Int.ediv_eq_zero_of_lt h0 hlt, Int.zero_mul, Int.sub_zero]

theorem Normal.make_eq (h : i.Normal w) : make w i.lo i.hi = i := by
  obtain ⟨hle, hspan, h0, hlt⟩ := h
  rw [make_of_lt h0 hlt, if_neg (by omega)]

/-- Is the interval the normal form of the bounds around the given ones? Its lower bound is the
least lower bound, and its upper bound the greatest upper bound. -/
def Around (w : Nat) (js : List Interval) (i : Interval) : Prop :=
  ∃ lo hi, i = make w lo hi ∧ lo ≤ hi ∧ 0 ≤ hi ∧ hi < modulus w ∧
    (∀ x, lo ≤ x ↔ ∃ j ∈ js, j.lo ≤ x) ∧ ∀ x, x ≤ hi ↔ ∃ j ∈ js, x ≤ j.hi

theorem Normal.around (h : i.Normal w) : Around w [i] i :=
  ⟨i.lo, i.hi, h.make_eq.symm, h.le, h.nonneg, h.lt, by simp, by simp⟩

/-- **One more hull.** Where the range around the others has collapsed, the bounds around all of
them span every word too. -/
theorem Around.hull (hw : w ≤ maxBits) {js : List Interval} (h : Around w js i)
    (hj : j.Normal w) : Around w (j :: js) (i.hull w j) := by
  obtain ⟨lo, hi, rfl, hle, h0, hlt, hlower, hupper⟩ := h
  obtain ⟨hjle, hjspan, hj0, hjlt⟩ := hj
  have hmax := maxWord_eq hw
  have hhull : (make w lo hi).hull w j = make w (min lo j.lo) (max hi j.hi) := by
    unfold Interval.hull
    rw [make_of_lt h0 hlt]
    by_cases hspan : hi < lo ∨ modulus w ≤ hi - lo
    · rw [if_pos hspan]
      simp only [top, hmax]
      rw [make_of_lt (by omega) (by omega), make_of_lt (by omega) (by omega),
        if_pos (by omega : max hi j.hi < min lo j.lo ∨ _)]
      by_cases hneg : j.lo < 0
      · rw [if_pos (by omega)]
      · rw [if_neg (by omega), top, hmax]
        congr 1 <;> omega
    · rw [if_neg hspan]
  refine ⟨min lo j.lo, max hi j.hi, hhull, by omega, by omega, by omega, fun x => ?_, fun x => ?_⟩
  · simp only [List.mem_cons, exists_eq_or_imp, ← hlower]
    omega
  · simp only [List.mem_cons, exists_eq_or_imp, ← hupper]
    omega

/-- **A range around fewer intervals has fewer members.** -/
theorem Around.mem_mono (hw : w ≤ maxBits) {is js : List Interval} (hi : Around w is i)
    (hj : Around w js j) (hsub : ∀ k ∈ is, k ∈ js) (h : i.Mem w n) : j.Mem w n := by
  obtain ⟨lo, hi, rfl, hle, -, -, hlower, hupper⟩ := hi
  obtain ⟨lo', hi', rfl, hle', -, -, hlower', hupper'⟩ := hj
  have hlo : lo' ≤ lo := by
    obtain ⟨k, hk, hklo⟩ := (hlower lo).1 (Int.le_refl lo)
    exact (hlower' lo).2 ⟨k, hsub k hk, hklo⟩
  have hhi : hi ≤ hi' := by
    obtain ⟨k, hk, hkhi⟩ := (hupper hi).1 (Int.le_refl hi)
    exact (hupper' hi).2 ⟨k, hsub k hk, hkhi⟩
  obtain ⟨x, hx, hx', hn⟩ := (mem_make_iff hw hle).1 h
  exact mem_make hw (Int.le_trans hlo hx) (Int.le_trans hx' hhi) hn

end Interval
end Lockstep
