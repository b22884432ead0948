/-
# When the checks of an operation pass

A run that may stop can only end with the result of the operation, whatever
numbers fit. Of operands within a bound of zero an operation computes numbers
within four times this bound, so if these fit, no check fails. Results are
normal, but for operands that are passed on; so ranges that are near enough to
zero for 64 bits give such ranges again.

Key definitions: `Only`, `Interval.Roomy`, `Interval.Within`, `Interval.Near`.
Key theorems: `Interval.Checked.only_make`, `Interval.Checked.only_binary`,
`Interval.Checked.make_eq`, `Interval.Checked.binary_eq`, `Interval.normal_binary`,
`Interval.Near.slice`, `Interval.Near.ite`.
-/
import Lockstep.Interval.Checked
import Lockstep.Proofs.Interval.Hull

namespace Lockstep

/-! ### Runs that may stop -/

section

variable {α β : Type} {run : Option α} {a : α}

/-- Can a run that may stop only end with the given result? -/
def Only (run : Option α) (a : α) : Prop := ∀ b, run = some b → b = a

theorem only_some (a : α) : Only (some a) a := fun _ h => (Option.some.inj h).symm

theorem Only.bind {f : α → Option β} {b : β} (h : Only run a) (hf : Only (f a) b) :
    Only (run >>= f) b := by
  intro c hc
  obtain ⟨a', ha', hc⟩ := Option.bind_eq_some_iff.1 hc
  obtain rfl := h a' ha'
  exact hf c hc

end

namespace Interval

variable {w v n : Nat} {i j : Interval}

/-! ### Numbers that fit -/

theorem only_computed (fits : Int → Bool) (x : Int) : Only (computed fits x) x := by
  intro y h
  unfold computed at h
  split at h
  · exact (Option.some.inj h).symm
  · cases h

/-- Do the numbers within four times a bound fit, and is no word beyond the bound? -/
structure Roomy (fits : Int → Bool) (b : Int) : Prop where
  word : 2 ^ 32 ≤ b
  fits : ∀ x, -(4 * b) < x → x < 4 * b → fits x = true

theorem roomy_narrow : Roomy narrow (2 ^ 32) := by
  refine ⟨by decide, fun x h1 h2 => ?_⟩
  simp only [narrow, Bool.and_eq_true, decide_eq_true_eq]
  omega

theorem roomy_long : Roomy long (2 ^ 61) := by
  refine ⟨by decide, fun x h1 h2 => ?_⟩
  simp only [long, Bool.and_eq_true, decide_eq_true_eq]
  omega

section

variable {fits : Int → Bool} {b : Int} (hf : Roomy fits b)
include hf

theorem Roomy.computed {x : Int} (h1 : -(4 * b) < x) (h2 : x < 4 * b) :
    computed fits x = some x := by
  rw [Interval.computed, if_pos (hf.fits x h1 h2)]

theorem Roomy.bind {α : Type} {x : Int} (h1 : -(4 * b) < x) (h2 : x < 4 * b)
    (f : Int → Option α) : (Interval.computed fits x >>= f) = f x := by
  rw [hf.computed h1 h2]
  rfl

end

theorem ediv_mul_modulus (w : Nat) (x : Int) :
    x / modulus w * modulus w = x - x % modulus w := by
  rw [Int.emod_def, Int.mul_comm]
  omega

/-- A quotient by two to a width is no farther from zero than the number. -/
theorem ediv_modulus_bounds (w : Nat) {x y : Int} (hy : 0 ≤ y) (h1 : -y ≤ x) (h2 : x < y) :
    -y ≤ x / modulus w ∧ x / modulus w < y := by
  have hpos := modulus_pos w
  have hmul := Int.mul_le_mul_of_nonneg_left (show 1 ≤ modulus w from hpos) hy
  constructor
  · rw [Int.le_ediv_iff_mul_le hpos, Int.neg_mul]
    omega
  · rw [Int.ediv_lt_iff_lt_mul hpos]
    omega

/-- Are the bounds in order and within the given one of zero? -/
structure Within (b : Int) (i : Interval) : Prop where
  le : i.lo ≤ i.hi
  low : -b ≤ i.lo
  high : i.hi < b

/-- The bounds of a normal interval are less than two to the width from zero. -/
theorem Normal.neg_lt (h : i.Normal w) : -modulus w < i.lo := by
  have := h.span
  have := h.nonneg
  omega

theorem Normal.within (hw : w ≤ maxBits) (h : i.Normal w) : i.Within (2 ^ 32) := by
  have hle := modulus_le hw
  have hneg := h.neg_lt
  have hlt := h.lt
  exact ⟨h.le, by omega, by omega⟩

namespace Checked

/-! ### What a run can end with -/

section

variable (fits : Int → Bool)

theorem only_exact (w n : Nat) : Only (exact fits w n) (Interval.exact w n) :=
  (only_computed fits _).bind (only_some _)

theorem only_top (w : Nat) : Only (top fits w) (Interval.top w) :=
  (only_computed fits _).bind (only_some _)

/-- Whatever fits, bounds that are moved without a check that fails are moved as without checks. -/
theorem only_make (w : Nat) (lo hi : Int) :
    Only (make fits w lo hi) (Interval.make w lo hi) := by
  have hcomputed := only_computed fits
  unfold make Interval.make
  refine (hcomputed _).bind ?_
  by_cases hempty : hi < lo
  · rw [if_pos hempty, if_pos (.inl hempty)]
    exact only_top fits w
  · rw [if_neg hempty]
    refine (hcomputed _).bind ?_
    by_cases hall : modulus w ≤ hi - lo
    · rw [if_pos hall, if_pos (.inr hall)]
      exact only_top fits w
    · rw [if_neg hall, if_neg (not_or.2 ⟨hempty, hall⟩)]
      refine (hcomputed _).bind ((hcomputed _).bind ?_)
      exact (hcomputed _).bind ((hcomputed _).bind (only_some _))

theorem only_singleton? (hw : w ≤ maxBits) (i : Interval) :
    Only (singleton? fits i w) (i.singleton? w) := by
  unfold singleton? Interval.singleton?
  by_cases heq : i.lo = i.hi
  · rw [if_pos heq, if_pos heq, ← modulus_of_le hw]
    exact (only_computed fits _).bind ((only_computed fits _).bind (only_some _))
  · rw [if_neg heq, if_neg heq]
    exact only_some _

theorem only_isCanonical (i : Interval) (w : Nat) :
    Only (isCanonical fits i w) (i.isCanonical w) :=
  (only_computed fits _).bind (only_some _)

theorem only_contains (i : Interval) (w n : Nat) :
    Only (contains fits i w n) (i.contains w n) := by
  have hcomputed := only_computed fits
  refine (hcomputed _).bind ((hcomputed _).bind ((hcomputed _).bind ((hcomputed _).bind ?_)))
  exact (hcomputed _).bind ((hcomputed _).bind ((hcomputed _).bind (only_some _)))

theorem only_hull (i : Interval) (w : Nat) (j : Interval) :
    Only (hull fits i w j) (i.hull w j) :=
  (only_computed fits _).bind ((only_computed fits _).bind (only_make fits w _ _))

theorem only_fillBelow (bound : Int) : Only (fillBelow fits bound) (Interval.fillBelow bound) := by
  unfold fillBelow Interval.fillBelow
  split
  · exact only_some _
  · exact (only_computed fits _).bind (only_computed fits _)

theorem only_bitwise (hw : w ≤ maxBits) (op : BinaryOp) (i j : Interval) {lo? hi? : Option Int}
    {lo hi : Int} (hlo : Only lo? lo) (hhi : Only hi? hi) :
    Only (bitwise fits op w i j lo? hi?) (Interval.bitwise op w i j lo hi) := by
  have hranges : Only
      (isCanonical fits i w >>= fun first => isCanonical fits j w >>= fun second =>
        if (first && second) = true then
          computed fits (maxWord w) >>= fun greatest => lo? >>= fun lo => hi? >>= fun hi =>
            computed fits (min hi greatest) >>= fun hi => make fits w lo hi
        else top fits w)
      (if (i.isCanonical w && j.isCanonical w) = true then
        Interval.make w lo (min hi (maxWord w)) else Interval.top w) := by
    refine (only_isCanonical fits i w).bind ((only_isCanonical fits j w).bind ?_)
    split
    · refine (only_computed fits _).bind (hlo.bind (hhi.bind ?_))
      exact (only_computed fits _).bind (only_make fits w _ _)
    · exact only_top fits w
  unfold bitwise Interval.bitwise
  refine (only_singleton? fits hw i).bind ((only_singleton? fits hw j).bind ?_)
  rcases i.singleton? w with _ | x <;> rcases j.singleton? w with _ | y
  case some.some => exact only_exact fits w _
  all_goals exact hranges

theorem only_binary (hw : w ≤ maxBits) (op : BinaryOp) (i j : Interval) :
    Only (binary fits op w i j) (Interval.binary op w i j) := by
  have hcomputed := only_computed fits
  cases op with
  | add => exact (hcomputed _).bind ((hcomputed _).bind (only_make fits w _ _))
  | sub => exact (hcomputed _).bind ((hcomputed _).bind (only_make fits w _ _))
  | and => exact only_bitwise fits hw .and i j (only_some _) (hcomputed _)
  | or =>
    exact only_bitwise fits hw .or i j (hcomputed _) ((hcomputed _).bind (only_fillBelow fits _))
  | xor =>
    exact only_bitwise fits hw .xor i j (only_some _)
      ((hcomputed _).bind (only_fillBelow fits _))

theorem only_invert (w : Nat) (i : Interval) :
    Only (invert fits w i) (Interval.invert w i) :=
  (only_computed fits _).bind ((only_computed fits _).bind (only_make fits w _ _))

theorem only_slice (hw : w ≤ maxBits) (i : Interval) (lo hi : Nat) :
    Only (slice fits w i lo hi) (Interval.slice w i lo hi) := by
  unfold slice Interval.slice
  refine (only_singleton? fits hw i).bind ?_
  cases i.singleton? w with
  | some n => exact only_exact fits _ _
  | none =>
    refine (only_isCanonical fits i w).bind ?_
    dsimp only
    split
    · refine (only_computed fits _).bind ?_
      split
      · exact only_some _
      · split
        · exact (only_computed fits _).bind ((only_computed fits _).bind (only_make fits _ _ _))
        · exact only_top fits _
    · exact only_top fits _

theorem only_concat (i : Interval) (w : Nat) (j : Interval) (v : Nat) :
    Only (concat fits i w j v) (Interval.concat i w j v) := by
  have hcomputed := only_computed fits
  unfold concat Interval.concat
  refine (only_isCanonical fits i w).bind ((only_isCanonical fits j v).bind ?_)
  split
  · refine (hcomputed _).bind ((hcomputed _).bind ((hcomputed _).bind ?_))
    exact (hcomputed _).bind (only_make fits _ _ _)
  · exact only_top fits _

theorem only_ite (w : Nat) (c i j : Interval) :
    Only (ite fits w c i j) (Interval.ite w c i j) := by
  unfold ite Interval.ite
  refine (only_singleton? fits (by decide) c).bind ?_
  generalize c.singleton? 1 = bit
  match bit with
  | some 1 => exact only_some _
  | some 0 => exact only_some _
  | some (_ + 2) => exact only_some _
  | none => exact only_hull fits i w j

theorem only_isZero (hw : w ≤ maxBits) (i : Interval) :
    Only (isZero fits w i) (Interval.isZero w i) := by
  unfold isZero Interval.isZero
  refine (only_singleton? fits hw i).bind ?_
  cases i.singleton? w with
  | some n => exact only_exact fits _ _
  | none =>
    refine (only_contains fits i w 0).bind ?_
    dsimp only
    split
    · exact only_top fits _
    · exact only_exact fits _ _

end

/-! ### Parts of the operations -/

variable {fits : Int → Bool} {b : Int} (hf : Roomy fits b)
include hf

theorem exact_eq (hw : w ≤ maxBits) (n : Nat) :
    exact fits w n = some (Interval.exact w n) := by
  have hword := hf.word
  have hlt := Word.truncate_lt w n
  have hmod := modulus_of_le hw
  have hle := modulus_le hw
  unfold exact
  rw [hf.bind (by omega) (by omega)]
  rfl

theorem top_eq (hw : w ≤ maxBits) : top fits w = some (Interval.top w) := by
  have hword := hf.word
  have hmax := maxWord_eq hw
  have hpos := modulus_pos w
  have hle := modulus_le hw
  unfold top
  rw [hf.bind (by omega) (by omega)]
  rfl

/-- **Moving bounds that are not far from zero** computes no number that is much farther. -/
theorem make_eq (hw : w ≤ maxBits) {lo hi : Int} (hlo : -(2 * b) ≤ lo) (hhi : hi < 2 * b) :
    make fits w lo hi = some (Interval.make w lo hi) := by
  have hword := hf.word
  have hpos := modulus_pos w
  have hle := modulus_le hw
  unfold make Interval.make
  rw [hf.bind (by omega) (by omega)]
  by_cases hempty : hi < lo
  · rw [if_pos hempty, if_pos (.inl hempty), top_eq hf hw]
  · rw [if_neg hempty, hf.bind (by omega) (by omega)]
    by_cases hspan : modulus w ≤ hi - lo
    · rw [if_pos hspan, if_pos (.inr hspan), top_eq hf hw]
    · obtain ⟨hdiv, hdiv'⟩ :=
        ediv_modulus_bounds w (show 0 ≤ 2 * b by omega) (by omega) hhi
      have hshift := ediv_mul_modulus w hi
      have hnonneg := Int.emod_nonneg hi (Int.ne_of_gt hpos)
      have hlt := Int.emod_lt_of_pos hi hpos
      rw [if_neg hspan, if_neg (not_or.2 ⟨hempty, hspan⟩), hf.bind (by omega) (by omega),
        hf.bind (by omega) (by omega), hf.bind (by omega) (by omega),
        hf.bind (by omega) (by omega)]
      rfl

theorem singleton?_eq (hw : w ≤ maxBits) (i : Interval) :
    singleton? fits i w = some (i.singleton? w) := by
  have hword := hf.word
  have hpos := modulus_pos w
  have hle := modulus_le hw
  have hnonneg := Int.emod_nonneg i.lo (Int.ne_of_gt hpos)
  have hlt := Int.emod_lt_of_pos i.lo hpos
  unfold singleton? Interval.singleton?
  by_cases heq : i.lo = i.hi
  · rw [if_pos heq, if_pos heq, hf.bind (by omega) (by omega), hf.bind (by omega) (by omega),
      modulus_of_le hw]
    rfl
  · rw [if_neg heq, if_neg heq]

theorem isCanonical_eq (hw : w ≤ maxBits) (i : Interval) :
    isCanonical fits i w = some (i.isCanonical w) := by
  have hword := hf.word
  have hmax := maxWord_eq hw
  have hpos := modulus_pos w
  have hle := modulus_le hw
  unfold isCanonical
  rw [hf.bind (by omega) (by omega)]
  rfl

theorem contains_eq (hw : w ≤ maxBits) (h : i.Within b) (n : Nat) :
    contains fits i w n = some (i.contains w n) := by
  have hb := hf.word
  have hpos := modulus_pos w
  have hle := modulus_le hw
  have hmod := modulus_of_le hw
  have hword := Word.truncate_lt w n
  obtain ⟨hile, hlow, hhigh⟩ := h
  obtain ⟨hdiv, hdiv'⟩ := ediv_modulus_bounds w (show 0 ≤ b by omega) hlow (by omega)
  have hbase := ediv_mul_modulus w i.lo
  have hrem := Int.emod_nonneg i.lo (Int.ne_of_gt hpos)
  have hrem' := Int.emod_lt_of_pos i.lo hpos
  unfold contains
  rw [hf.bind (by omega) (by omega), hf.bind (by omega) (by omega), hf.bind (by omega) (by omega),
    hf.bind (by omega) (by omega), hf.bind (by omega) (by omega), hf.bind (by omega) (by omega),
    hf.bind (by omega) (by omega)]
  rfl

theorem hull_eq (hw : w ≤ maxBits) (hi : i.Within b) (hj : j.Within b) :
    hull fits i w j = some (i.hull w j) := by
  have hword := hf.word
  obtain ⟨hile, hilow, hihigh⟩ := hi
  obtain ⟨hjle, hjlow, hjhigh⟩ := hj
  unfold hull
  rw [hf.bind (by omega) (by omega), hf.bind (by omega) (by omega),
    make_eq hf hw (by omega) (by omega)]
  rfl

/-! ### Operations -/

omit hf in
theorem fillBelow_nonneg (bound : Int) : 0 ≤ Interval.fillBelow bound := by
  unfold Interval.fillBelow
  have := modulus_pos (bound.toNat.log2 + 1)
  split <;> omega

/-- The bits below those of a word fill up to a word of the widest width. -/
theorem fillBelow_eq {bound : Int} (h : bound < 2 ^ 32) :
    fillBelow fits bound = some (Interval.fillBelow bound) := by
  have hword := hf.word
  unfold fillBelow Interval.fillBelow
  by_cases hzero : bound ≤ 0
  · rw [if_pos hzero, if_pos hzero]
  · have hlog : bound.toNat.log2 < 32 := (Nat.log2_lt (by omega)).2 (by omega)
    have hpos := modulus_pos (bound.toNat.log2 + 1)
    have hle := modulus_le (w := bound.toNat.log2 + 1) hlog
    rw [if_neg hzero, if_neg hzero, hf.bind (by omega) (by omega),
      hf.computed (by omega) (by omega)]

/-- A bitwise operation computes small numbers if its bounds do for two ranges that do not go
through zero. -/
theorem bitwise_eq (hw : w ≤ maxBits) (op : BinaryOp) {lo? hi? : Option Int} {lo hi : Int}
    (hbounds : i.isCanonical w = true → j.isCanonical w = true →
      lo? = some lo ∧ hi? = some hi ∧ 0 ≤ lo ∧ 0 ≤ hi) :
    bitwise fits op w i j lo? hi? = some (Interval.bitwise op w i j lo hi) := by
  have hword := hf.word
  have hmax := maxWord_eq hw
  have hpos := modulus_pos w
  have hle := modulus_le hw
  unfold bitwise Interval.bitwise
  rw [singleton?_eq hf hw, singleton?_eq hf hw, isCanonical_eq hf hw, isCanonical_eq hf hw]
  simp only [Option.bind_eq_bind, Option.bind_some, top_eq hf hw, exact_eq hf hw]
  generalize i.singleton? w = x, j.singleton? w = y
  have hranges : (if (i.isCanonical w && j.isCanonical w) = true then
      (computed fits (maxWord w)).bind fun greatest => lo?.bind fun lo => hi?.bind fun hi =>
        (computed fits (min hi greatest)).bind fun hi => make fits w lo hi
      else some (Interval.top w)) =
      some (if (i.isCanonical w && j.isCanonical w) = true then
        Interval.make w lo (min hi (maxWord w)) else Interval.top w) := by
    by_cases hcan : (i.isCanonical w && j.isCanonical w) = true
    · obtain ⟨hi', hj'⟩ := Bool.and_eq_true_iff.1 hcan
      obtain ⟨rfl, rfl, hlo0, hhi0⟩ := hbounds hi' hj'
      rw [if_pos hcan, if_pos hcan, hf.computed (by omega) (by omega)]
      simp only [Option.bind_some]
      rw [hf.computed (by omega) (by omega), Option.bind_some,
        make_eq hf hw (by omega) (by omega)]
    · rw [if_neg hcan, if_neg hcan]
  rcases x with _ | x <;> rcases y with _ | y
  case some.some => rfl
  all_goals exact hranges

omit hf in
theorem bounds_of_isCanonical (hw : w ≤ maxBits) (h : i.isCanonical w = true) :
    0 ≤ i.lo ∧ i.hi < 2 ^ 32 := by
  have hmax := maxWord_eq hw
  have hle := modulus_le hw
  simp only [Interval.isCanonical, Bool.and_eq_true, decide_eq_true_eq] at h
  omega

theorem binary_eq (hw : w ≤ maxBits) (op : BinaryOp) (hi : i.Within b) (hj : j.Within b) :
    binary fits op w i j = some (Interval.binary op w i j) := by
  have hword := hf.word
  obtain ⟨hile, hilow, hihigh⟩ := hi
  obtain ⟨hjle, hjlow, hjhigh⟩ := hj
  have hfill (hi : i.isCanonical w = true) (hj : j.isCanonical w = true) :
      (computed fits (max i.hi j.hi) >>= fillBelow fits)
        = some (Interval.fillBelow (max i.hi j.hi)) := by
    have hi' := bounds_of_isCanonical hw hi
    have hj' := bounds_of_isCanonical hw hj
    rw [hf.bind (by omega) (by omega), fillBelow_eq hf (by omega)]
  cases op with
  | add =>
    unfold binary
    simp only
    rw [hf.bind (by omega) (by omega), hf.bind (by omega) (by omega),
      make_eq hf hw (by omega) (by omega)]
    rfl
  | sub =>
    unfold binary
    simp only
    rw [hf.bind (by omega) (by omega), hf.bind (by omega) (by omega),
      make_eq hf hw (by omega) (by omega)]
    rfl
  | and =>
    refine bitwise_eq hf hw .and fun hi hj => ?_
    have hi' := bounds_of_isCanonical hw hi
    have hj' := bounds_of_isCanonical hw hj
    exact ⟨rfl, hf.computed (by omega) (by omega), by omega, by omega⟩
  | or =>
    refine bitwise_eq hf hw .or fun hi hj => ?_
    have hi' := bounds_of_isCanonical hw hi
    exact ⟨hf.computed (by omega) (by omega), hfill hi hj, by omega, fillBelow_nonneg _⟩
  | xor =>
    exact bitwise_eq hf hw .xor fun hi hj => ⟨rfl, hfill hi hj, by omega, fillBelow_nonneg _⟩

theorem invert_eq (hw : w ≤ maxBits) (h : i.Within b) :
    invert fits w i = some (Interval.invert w i) := by
  have hword := hf.word
  obtain ⟨hile, hlow, hhigh⟩ := h
  unfold invert
  rw [hf.bind (by omega) (by omega), hf.bind (by omega) (by omega),
    make_eq hf hw (by omega) (by omega)]
  rfl

theorem slice_eq {lo hi : Nat} (hw : w ≤ maxBits) (hhi : hi ≤ w) (h : i.Within b) :
    slice fits w i lo hi = some (Interval.slice w i lo hi) := by
  have hword := hf.word
  have hw' : hi - lo ≤ maxBits := by omega
  have hmax := maxWord_eq hw'
  have hle' := modulus_le hw'
  have hpos' := modulus_pos (hi - lo)
  obtain ⟨hile, hlow, hhigh⟩ := h
  obtain ⟨hlo1, hlo2⟩ := ediv_modulus_bounds lo (show 0 ≤ b by omega) hlow (by omega)
  obtain ⟨hhi1, hhi2⟩ := ediv_modulus_bounds lo (x := i.hi) (show 0 ≤ b by omega) (by omega) hhigh
  unfold slice Interval.slice
  rw [singleton?_eq hf hw, isCanonical_eq hf hw, top_eq hf hw']
  cases i.singleton? w with
  | some n =>
    simp only [Option.bind_eq_bind, Option.bind_some]
    exact exact_eq hf hw' _
  | none =>
    simp only [Option.bind_eq_bind, Option.bind_some]
    by_cases hcan : i.isCanonical w = true
    · rw [if_pos hcan, if_pos hcan]
      simp only [← Option.bind_eq_bind]
      rw [hf.bind (by omega) (by omega), hf.bind (by omega) (by omega),
        hf.bind (by omega) (by omega), make_eq hf hw' (by omega) (by omega)]
      split
      · rfl
      · split <;> rfl
    · rw [if_neg hcan, if_neg hcan]

theorem concat_eq (hw : w + v ≤ maxBits) (hi : i.lo ≤ i.hi) (hj : j.lo ≤ j.hi) :
    concat fits i w j v = some (Interval.concat i w j v) := by
  have hword := hf.word
  have hiw : w ≤ maxBits := by omega
  have hjv : v ≤ maxBits := by omega
  unfold concat Interval.concat
  rw [isCanonical_eq hf hiw, isCanonical_eq hf hjv, top_eq hf hw]
  simp only [Option.bind_eq_bind, Option.bind_some]
  by_cases hcan : (i.isCanonical w && j.isCanonical v) = true
  · rw [if_pos hcan, if_pos hcan]
    simp only [Interval.isCanonical, Bool.and_eq_true, decide_eq_true_eq] at hcan
    obtain ⟨⟨hilo, hihi⟩, hjlo, hjhi⟩ := hcan
    have himax := maxWord_eq hiw
    have hjmax := maxWord_eq hjv
    have hiM := modulus_pos w
    have hle := modulus_le hw
    have hlow := Int.mul_nonneg hjlo (Int.le_of_lt hiM)
    have hhigh := Int.mul_le_mul_of_nonneg_right hj (Int.le_of_lt hiM)
    have hroom := mul_modulus_le (m := w) (show j.hi < modulus v by omega)
    rw [moveUp_eq hw hjlo (by omega), moveUp_eq hw (by omega) (by omega)]
    simp only [← Option.bind_eq_bind]
    rw [hf.bind (by omega) (by omega), hf.bind (by omega) (by omega),
      hf.bind (by omega) (by omega), hf.bind (by omega) (by omega),
      make_eq hf hw (by omega) (by omega)]
  · rw [if_neg hcan, if_neg hcan]

theorem ite_eq (hw : w ≤ maxBits) (c : Interval) (hi : i.Within b) (hj : j.Within b) :
    ite fits w c i j = some (Interval.ite w c i j) := by
  unfold ite Interval.ite
  rw [singleton?_eq hf (by decide)]
  generalize c.singleton? 1 = bit
  match bit with
  | some 1 => rfl
  | some 0 => rfl
  | some (_ + 2) => rfl
  | none => exact hull_eq hf hw hi hj

theorem isZero_eq (hw : w ≤ maxBits) (h : i.Within b) :
    isZero fits w i = some (Interval.isZero w i) := by
  have hone : 1 ≤ maxBits := by decide
  unfold isZero Interval.isZero
  rw [singleton?_eq hf hw, contains_eq hf hw h, exact_eq hf hone, top_eq hf hone]
  cases i.singleton? w with
  | some n =>
    simp only [Option.bind_eq_bind, Option.bind_some]
    exact exact_eq hf hone _
  | none =>
    simp only [Option.bind_eq_bind, Option.bind_some]
    split <;> rfl

end Checked

/-! ### Results are normal -/

theorem normal_exact (hw : w ≤ maxBits) (n : Nat) : (exact w n).Normal w := by
  have hlt := Word.truncate_lt w n
  have hmod := modulus_of_le hw
  refine ⟨?_, ?_, ?_, ?_⟩ <;> simp only [exact] <;> omega

theorem normal_top (hw : w ≤ maxBits) : (top w).Normal w := by
  have hmax := maxWord_eq hw
  have hpos := modulus_pos w
  refine ⟨?_, ?_, ?_, ?_⟩ <;> simp only [top] <;> omega

theorem normal_bitwise (hw : w ≤ maxBits) (op : BinaryOp) (i j : Interval) (lo hi : Int) :
    (bitwise op w i j lo hi).Normal w := by
  unfold bitwise
  split
  · exact normal_exact hw _
  · split
    · exact normal_make hw _ _
    · exact normal_top hw

theorem normal_binary (hw : w ≤ maxBits) (op : BinaryOp) (i j : Interval) :
    (binary op w i j).Normal w := by
  cases op with
  | add => exact normal_make hw _ _
  | sub => exact normal_make hw _ _
  | and => exact normal_bitwise hw _ _ _ _ _
  | or => exact normal_bitwise hw _ _ _ _ _
  | xor => exact normal_bitwise hw _ _ _ _ _

/-- A slice that returns its operand does so because the bounds are words of the lesser width. -/
theorem normal_slice {lo hi : Nat} (hw : w ≤ maxBits) (hhi : hi ≤ w) (h : i.Normal w) :
    (slice w i lo hi).Normal (hi - lo) := by
  have hw' : hi - lo ≤ maxBits := by omega
  unfold slice
  split
  · exact normal_exact hw' _
  · split
    · rename_i hcan
      simp only [isCanonical, Bool.and_eq_true, decide_eq_true_eq] at hcan
      split
      · rename_i hlow
        have hmax := maxWord_eq hw'
        have hle := h.le
        have hnonneg := h.nonneg
        exact ⟨hle, by omega, hnonneg, by omega⟩
      · split
        · exact normal_make hw' _ _
        · exact normal_top hw'
    · exact normal_top hw'

theorem normal_concat (hw : w + v ≤ maxBits) (i j : Interval) :
    (concat i w j v).Normal (w + v) := by
  unfold concat
  split
  · exact normal_make hw _ _
  · exact normal_top hw

theorem normal_ite (hw : w ≤ maxBits) (c : Interval) (hi : i.Normal w) (hj : j.Normal w) :
    (ite w c i j).Normal w := by
  unfold ite
  split
  · exact hi
  · exact hj
  · exact normal_make hw _ _

theorem normal_isZero (w : Nat) (i : Interval) : (isZero w i).Normal 1 := by
  have hone : 1 ≤ maxBits := by decide
  unfold isZero
  split
  · exact normal_exact hone _
  · split
    · exact normal_top hone
    · exact normal_exact hone _

/-! ### Ranges of 64 bits -/

/-- Is the range one of which 64 bits hold every number that an operation computes? -/
def Near (i : Interval) : Prop := i.Within (2 ^ 61)

theorem Normal.near (hw : w ≤ maxBits) (h : i.Normal w) : i.Near := by
  obtain ⟨hle, hlow, hhigh⟩ := h.within hw
  exact ⟨hle, by omega, by omega⟩

theorem near_exact (hw : w ≤ maxBits) (n : Nat) : (exact w n).Near := (normal_exact hw n).near hw

theorem near_top (hw : w ≤ maxBits) : (top w).Near := (normal_top hw).near hw

theorem near_hull (hw : w ≤ maxBits) (i j : Interval) : (i.hull w j).Near :=
  (normal_make hw _ _).near hw

theorem near_binary (hw : w ≤ maxBits) (op : BinaryOp) (i j : Interval) :
    (binary op w i j).Near :=
  (normal_binary hw op i j).near hw

theorem near_invert (hw : w ≤ maxBits) (i : Interval) : (invert w i).Near :=
  (normal_make hw _ _).near hw

theorem Near.slice {lo hi : Nat} (hw : hi - lo ≤ maxBits) (h : i.Near) :
    (slice w i lo hi).Near := by
  unfold Interval.slice
  split
  · exact near_exact hw _
  · split
    · split
      · exact h
      · split
        · exact (normal_make hw _ _).near hw
        · exact near_top hw
    · exact near_top hw

theorem near_concat (hw : w + v ≤ maxBits) (i j : Interval) : (concat i w j v).Near :=
  (normal_concat hw i j).near hw

theorem Near.ite (hw : w ≤ maxBits) (c : Interval) (hi : i.Near) (hj : j.Near) :
    (ite w c i j).Near := by
  unfold Interval.ite
  split
  · exact hi
  · exact hj
  · exact near_hull hw i j

theorem near_isZero (w : Nat) (i : Interval) : (isZero w i).Near :=
  (normal_isZero w i).near (by decide)

end Interval
end Lockstep
