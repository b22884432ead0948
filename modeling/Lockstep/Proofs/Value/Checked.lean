/-
# What checked operations on values return

A checked operation on values returns what the operation without checks gives,
or it ends the program. Where the ranges of the operands are near zero it
returns, and so is the range of the result: a program whose values start near
zero is never ended by a bound.

Key definitions: `Value.Near`.
Key theorems: `Value.Near.interval?`, `Value.Checked.only_assemble`,
`Value.Checked.assemble_eq`, `Value.Checked.only_binary`, `Value.Checked.binary_eq`,
`Value.near_binary`, `Value.Near.ite`.
-/
import Lockstep.Proofs.Computation
import Lockstep.Proofs.Interval.Checked
import Lockstep.Proofs.Value.Bridge
import Lockstep.Proofs.Value.Operations
import Lockstep.Value.Checked

namespace Lockstep
namespace Value

variable {active : DomainSet} {bits : Nat} {a b c v : Value}

/-! ### Values near zero -/

/-- Is the range of the value, if it has one, near zero? -/
structure Near (v : Value) : Prop where
  le : v.bits ≤ maxBits
  range : ∀ i, v.interval = some i → i.Near

theorem Near.interval? (h : v.Near) {i : Interval} (hi : v.interval? = some i) : i.Near := by
  unfold Value.interval? at hi
  cases hrange : v.interval with
  | some j =>
    rw [hrange] at hi
    obtain rfl := Option.some.inj hi
    exact h.range _ hrange
  | none =>
    rw [hrange, Option.none_or] at hi
    obtain ⟨n, -, rfl⟩ := Option.map_eq_some_iff.1 hi
    exact Interval.near_exact h.le n

theorem le_of_checkWidth (h : checkWidth bits = .ok ()) : bits ≤ maxBits := by
  unfold checkWidth at h
  split at h
  · cases h
  · omega

theorem eq_of_sameWidth {operation : String} {w : Nat} (h : sameWidth operation a b = .ok w) :
    a.bits = w := by
  unfold sameWidth at h
  split at h
  · exact Except.ok.inj h
  · cases h

theorem near_of_assemble {known : Option Nat} {range : Option Interval} {term : Option Term}
    (hle : bits ≤ maxBits) (hrange : ∀ i, range = some i → i.Near)
    (h : assemble active bits known range term = .ok v) : v.Near := by
  rw [eq_of_assemble active h]
  exact ⟨hle, fun i hi => hrange i (only_eq_some.1 hi).2⟩

theorem Near.restrict (h : v.Near) (s : DomainSet) : (v.restrict s).Near :=
  ⟨h.le, fun i hi => h.range i (only_eq_some.1 hi).2⟩

theorem Near.takeParts {update : Value} (h : v.Near) (hupdate : update.Near) (s : DomainSet) :
    (v.takeParts update s).Near := by
  refine ⟨h.le, fun i hi => ?_⟩
  simp only [Value.takeParts] at hi
  split at hi
  · exact hupdate.range i hi
  · exact h.range i hi

/-! ### Ranges of results -/

theorem near_number {n : Nat} (h : number active bits n = .ok v) : v.Near := by
  obtain ⟨_, hwidth, h⟩ := bind_eq_ok h
  have hle := le_of_checkWidth hwidth
  refine near_of_assemble hle (fun i hi => ?_) h
  obtain rfl := Option.some.inj hi
  exact Interval.near_exact hle n

theorem near_binary {op : BinaryOp} (ha : a.Near) (h : binary active op a b = .ok v) :
    v.Near := by
  obtain ⟨w, hw, h⟩ := bind_eq_ok h
  obtain rfl : a.bits = w := eq_of_sameWidth hw
  refine near_of_assemble ha.le (fun i hi => ?_) h
  obtain ⟨x, y, -, -, rfl⟩ := bind₂_eq_some hi
  exact Interval.near_binary ha.le op x y

theorem near_invert (ha : a.Near) (h : invert active a = .ok v) : v.Near := by
  refine near_of_assemble ha.le (fun i hi => ?_) h
  obtain ⟨x, -, rfl⟩ := bind_eq_some hi
  exact Interval.near_invert ha.le x

theorem Near.slice {lo hi : Nat} (ha : a.Near) (h : a.slice active lo hi = .ok v) : v.Near := by
  unfold Value.slice at h
  by_cases hwidth : hi ≤ lo ∨ a.bits < hi
  · rw [if_pos hwidth] at h
    cases h
  rw [if_neg hwidth] at h
  have hle : hi - lo ≤ maxBits := by
    have := ha.le
    omega
  refine near_of_assemble hle (fun i hrange => ?_) h
  obtain ⟨x, hx, rfl⟩ := bind_eq_some hrange
  exact (ha.interval? hx).slice hle

theorem near_concat (h : concat active a b = .ok v) : v.Near := by
  obtain ⟨_, hwidth, h⟩ := bind_eq_ok h
  have hle := le_of_checkWidth hwidth
  refine near_of_assemble hle (fun i hi => ?_) h
  obtain ⟨x, y, -, -, rfl⟩ := bind₂_eq_some hi
  exact Interval.near_concat hle x y

theorem Near.ite (ha : a.Near) (hb : b.Near) (h : ite active c a b = .ok v) : v.Near := by
  unfold Value.ite at h
  by_cases hbit : c.bits ≠ 1
  · rw [if_pos hbit] at h
    cases h
  rw [if_neg hbit] at h
  obtain ⟨w, hw, h⟩ := bind_eq_ok h
  obtain rfl : a.bits = w := eq_of_sameWidth hw
  refine near_of_assemble ha.le (fun i hi => ?_) h
  obtain ⟨x, y, z, -, hy, hz, rfl⟩ := bind₃_eq_some hi
  exact Interval.Near.ite ha.le x (ha.interval? hy) (hb.interval? hz)

theorem near_isZero (h : isZero active a = .ok v) : v.Near := by
  refine near_of_assemble (by decide) (fun i hi => ?_) h
  obtain ⟨x, -, rfl⟩ := bind_eq_some hi
  exact Interval.near_isZero _ x

theorem Near.setSymbolic {t : Term} (hv : v.Near) (h : v.setSymbolic t = .ok a) : a.Near := by
  rw [eq_of_setSymbolic h]
  exact ⟨hv.le, hv.range⟩

theorem near_undefined {σ : Type} {s s' : Symbolic σ}
    (h : undefined active bits s = (.ok v, s')) : v.Near := by
  obtain ⟨_, hwidth, h⟩ := apply_check_eq_ok h
  have hle := le_of_checkWidth hwidth
  have hranged : Near { bits, interval := active.only .interval (some (.top bits)) } := by
    refine ⟨hle, fun i hi => ?_⟩
    obtain rfl := Option.some.inj (only_eq_some.1 hi).2
    exact Interval.near_top hle
  by_cases hs : active.contains .symbolic = true
  · rw [if_pos hs] at h
    obtain ⟨t, s₁, -, h⟩ := apply_bind_eq_ok h
    rw [apply_liftExcept] at h
    exact hranged.setSymbolic (Prod.mk.inj h).1
  · rw [if_neg hs] at h
    obtain rfl := Except.ok.inj (Prod.mk.inj h).1
    exact hranged

/-- A value that gets a term keeps the rest. -/
theorem ensure_symbolic_keeps (h : v.ensure active .symbolic = .ok a) :
    a.bits = v.bits ∧ a.concrete = v.concrete ∧ a.interval = v.interval := by
  unfold ensure at h
  split at h
  · cases h
  split at h
  · obtain rfl := Except.ok.inj h
    exact ⟨rfl, rfl, rfl⟩
  dsimp only at h
  cases hterm : v.symbolic? with
  | some t =>
    rw [hterm] at h
    rw [eq_of_setSymbolic h]
    exact ⟨rfl, rfl, rfl⟩
  | none =>
    rw [hterm] at h
    cases h

theorem Near.refineZero {σ : Type} [Solver σ] (hv : v.Near) (s : Symbolic σ) :
    (v.refineZero active s).1.Near := by
  by_cases hboth : (active.contains .symbolic && active.contains .interval) = true
  · obtain ⟨-, heq | ⟨heq, -⟩⟩ := refineZero_spec v active s
    · rw [heq]
      exact hv
    · rw [heq]
      refine ⟨hv.le, ?_⟩
      rintro i ⟨⟩
      exact Interval.near_exact hv.le 0
  · unfold Value.refineZero
    rw [if_neg hboth]
    exact hv

/-! ### Checked and unchecked parts -/

section

variable {R : Option Interval → Interval → Prop} {x y z : Option Interval}

theorem rel₁ {f : Interval → Option Interval} {g : Interval → Interval}
    (h : ∀ i, x = some i → R (f i) (g i)) :
    Option.Rel R (do some (f (← x))) (do some (g (← x))) := by
  cases x with
  | none => exact .none
  | some i => exact .some (h i rfl)

theorem rel₂ {f : Interval → Interval → Option Interval} {g : Interval → Interval → Interval}
    (h : ∀ i j, x = some i → y = some j → R (f i j) (g i j)) :
    Option.Rel R (do some (f (← x) (← y))) (do some (g (← x) (← y))) := by
  cases x with
  | none => exact .none
  | some i =>
    cases y with
    | none => exact .none
    | some j => exact .some (h i j rfl rfl)

theorem rel₃ {f : Interval → Interval → Interval → Option Interval}
    {g : Interval → Interval → Interval → Interval}
    (h : ∀ i j k, x = some i → y = some j → z = some k → R (f i j k) (g i j k)) :
    Option.Rel R (do some (f (← x) (← y) (← z))) (do some (g (← x) (← y) (← z))) := by
  cases x with
  | none => exact .none
  | some i =>
    cases y with
    | none => exact .none
    | some j =>
      cases z with
      | none => exact .none
      | some k => exact .some (h i j k rfl rfl rfl)

end

/-- A range is not looked at while its domain is not active. -/
theorem assemble_inactive (h : ¬ active.contains .interval = true) (known : Option Nat)
    (range : Option Interval) (term : Option Term) :
    assemble active bits known range term = assemble active bits known none term := by
  unfold assemble DomainSet.only
  rw [if_neg h, if_neg h]

namespace Checked

section

variable {run : Option (Option Interval)} {range : Option Interval} (known : Option Nat)
  (term : Option Term)

/-- **What is assembled**, if computing the range does not end the program. -/
theorem only_assemble (h : Option.Rel Only run range) :
    Only (assemble active bits known run term) (Value.assemble active bits known range term) := by
  unfold assemble
  by_cases hi : active.contains .interval = true
  · rw [DomainSet.only, if_pos hi]
    cases h with
    | none => exact only_some _
    | some h =>
      intro r hr
      obtain ⟨i, hrun, rfl⟩ := Option.map_eq_some_iff.1 hr
      rw [h i hrun]
  · rw [DomainSet.only, if_neg hi, assemble_inactive hi known range term]
    exact only_some _

theorem assemble_eq (h : Option.Rel (fun run i => run = some i) run range) :
    assemble active bits known run term =
      some (Value.assemble active bits known range term) := by
  unfold assemble
  by_cases hi : active.contains .interval = true
  · rw [DomainSet.only, if_pos hi]
    cases h with
    | none => rfl
    | some h =>
      dsimp only
      rw [h, Option.map_some]
  · rw [DomainSet.only, if_neg hi, assemble_inactive hi known range term]

end

/-! ### Operations -/

variable (active)

theorem only_binary (hle : a.bits ≤ maxBits) (op : BinaryOp) (b : Value) :
    Only (binary active op a b) (Value.binary active op a b) := by
  unfold binary Value.binary sameWidth
  by_cases hw : a.bits = b.bits
  · rw [if_pos hw]
    exact only_assemble _ _ (rel₂ fun i j _ _ => Interval.Checked.only_binary _ hle op i j)
  · rw [if_neg hw]
    exact only_some _

theorem binary_eq (op : BinaryOp) (ha : a.Near) (hb : b.Near) :
    binary active op a b = some (Value.binary active op a b) := by
  unfold binary Value.binary sameWidth
  by_cases hw : a.bits = b.bits
  · rw [if_pos hw]
    exact assemble_eq _ _ (rel₂ fun i j hi hj =>
      Interval.Checked.binary_eq Interval.roomy_long ha.le op (ha.interval? hi) (hb.interval? hj))
  · rw [if_neg hw]
    rfl

theorem only_invert (a : Value) : Only (invert active a) (Value.invert active a) :=
  only_assemble _ _ (rel₁ fun i _ => Interval.Checked.only_invert _ _ i)

theorem invert_eq (ha : a.Near) : invert active a = some (Value.invert active a) :=
  assemble_eq _ _ (rel₁ fun _ hi =>
    Interval.Checked.invert_eq Interval.roomy_long ha.le (ha.interval? hi))

theorem only_slice (hle : a.bits ≤ maxBits) (lo hi : Nat) :
    Only (slice active a lo hi) (a.slice active lo hi) := by
  unfold slice Value.slice
  by_cases hwidth : hi ≤ lo ∨ a.bits < hi
  · rw [if_pos hwidth, if_pos hwidth]
    exact only_some _
  · rw [if_neg hwidth, if_neg hwidth]
    exact only_assemble _ _ (rel₁ fun i _ => Interval.Checked.only_slice _ hle i lo hi)

theorem slice_eq (lo hi : Nat) (ha : a.Near) :
    slice active a lo hi = some (a.slice active lo hi) := by
  unfold slice Value.slice
  by_cases hwidth : hi ≤ lo ∨ a.bits < hi
  · rw [if_pos hwidth, if_pos hwidth]
    rfl
  · rw [if_neg hwidth, if_neg hwidth]
    exact assemble_eq _ _ (rel₁ fun _ hrange =>
      Interval.Checked.slice_eq Interval.roomy_long ha.le (by omega) (ha.interval? hrange))

theorem only_concat (a b : Value) : Only (concat active a b) (Value.concat active a b) := by
  unfold concat Value.concat
  cases checkWidth (a.bits + b.bits) with
  | error f => exact only_some _
  | ok _ => exact only_assemble _ _ (rel₂ fun i j _ _ => Interval.Checked.only_concat _ i _ j _)

theorem concat_eq (ha : a.Near) (hb : b.Near) :
    concat active a b = some (Value.concat active a b) := by
  unfold concat Value.concat checkWidth
  by_cases hwidth : a.bits + b.bits = 0 ∨ maxBits < a.bits + b.bits
  · rw [if_pos hwidth]
    rfl
  · rw [if_neg hwidth]
    exact assemble_eq _ _ (rel₂ fun i j hi hj =>
      Interval.Checked.concat_eq Interval.roomy_long (by omega) (ha.interval? hi).le
        (hb.interval? hj).le)

theorem only_ite (c a b : Value) : Only (ite active c a b) (Value.ite active c a b) := by
  unfold ite Value.ite
  by_cases hbit : c.bits ≠ 1
  · rw [if_pos hbit, if_pos hbit]
    exact only_some _
  · rw [if_neg hbit, if_neg hbit]
    cases sameWidth "ite" a b with
    | error f => exact only_some _
    | ok w =>
      exact only_assemble _ _ (rel₃ fun i j k _ _ _ => Interval.Checked.only_ite _ _ i j k)

theorem ite_eq (c : Value) (ha : a.Near) (hb : b.Near) :
    ite active c a b = some (Value.ite active c a b) := by
  unfold ite Value.ite sameWidth
  by_cases hbit : c.bits ≠ 1
  · rw [if_pos hbit, if_pos hbit]
    rfl
  · rw [if_neg hbit, if_neg hbit]
    by_cases hw : a.bits = b.bits
    · rw [if_pos hw]
      exact assemble_eq _ _ (rel₃ fun i j k _ hj hk =>
        Interval.Checked.ite_eq Interval.roomy_long ha.le i (ha.interval? hj) (hb.interval? hk))
    · rw [if_neg hw]
      rfl

theorem only_isZero (hle : a.bits ≤ maxBits) :
    Only (isZero active a) (Value.isZero active a) :=
  only_assemble _ _ (rel₁ fun i _ => Interval.Checked.only_isZero _ hle i)

theorem isZero_eq (ha : a.Near) : isZero active a = some (Value.isZero active a) :=
  assemble_eq _ _ (rel₁ fun _ hi =>
    Interval.Checked.isZero_eq Interval.roomy_long ha.le (ha.interval? hi))

end Checked
end Value
end Lockstep
