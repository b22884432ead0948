/-
# Exclusive or finds equal words

Ranges alone cannot see that the exclusive or of two equal words is zero, so
the engine asks the solver for the term of the result. What that term is
depends on what folds: two constants, or two equal terms, are a constant; the
constant zero disappears and leaves the other operand; only the rest is an
exclusive or. Of each of these shapes the built-in solver says that it is
zero if the operands have one linear form. The exclusive or of a value with
itself is a constant, which needs no solver.

Key definitions: `Term.XorShape`, `Engine.PinsZero`.
Key theorems: `Term.xorShape_mkBinary`, `Term.XorShape.zero`, `Engine.xor_pinsZero`,
`Engine.xor_finds_equal`.
-/
import Lockstep.Proofs.Engine.Rejected
import Lockstep.Proofs.Memory.Offsets

namespace Lockstep

namespace Term

variable {w : Nat} {a b t : Term}

/-! ### Shapes of an exclusive or -/

/-- What the exclusive or of two terms folds to. -/
inductive XorShape (w : Nat) (a b : Term) : Term → Prop
  | constants {m n : Nat} (ha : a.const? = some m) (hb : b.const? = some n) :
      XorShape w a b (number w (Word.binary .xor w m n))
  | same (h : a = b) : XorShape w a b (number w 0)
  | left (ha : a.const? = none) (hb : b.const? = some 0) : XorShape w a b a
  | right (ha : a.const? = some 0) (hb : b.const? = none) : XorShape w a b b
  | node : XorShape w a b (binary .xor w a b)

theorem xorShape_mkBinary (w : Nat) (a b : Term) : XorShape w a b (mkBinary .xor w a b) := by
  cases ha : a.const? with
  | some m =>
    cases hb : b.const? with
    | some n =>
      rw [mkBinary_of_some ha hb]
      exact .constants ha hb
    | none =>
      have hopen : mkBinary .xor w a b = mkBinaryOpen .xor w a b := by
        unfold mkBinary
        rw [ha, hb]
      rw [hopen, mkBinaryOpen]
      split_ifs with heq hzero hzero'
      · exact .same heq
      · exact .right hzero hb
      · rw [hb] at hzero'
        cases hzero'
      · exact .node
  | none =>
    rw [mkBinary_of_none ha, mkBinaryOpen]
    split_ifs with heq hzero hzero'
    · exact .same heq
    · rw [ha] at hzero
      cases hzero
    · exact .left ha hzero'
    · exact .node

theorem XorShape.width (h : XorShape w a b t) (ha : a.width = w) (hb : b.width = w) :
    t.width = w := by
  cases h with
  | constants _ _ => rfl
  | same _ => rfl
  | left _ _ => exact ha
  | right _ _ => exact hb
  | node => rfl

theorem linearForm_of_const? {n : Nat} (h : a.const? = some n) :
    a.linearForm = { bits := a.width, constant := n } := by
  cases a with
  | const w v =>
    obtain rfl := Option.some.inj h
    rfl
  | _ => cases h

/-- Is the term the constant zero, or one that is told to be zero? -/
def ToldZero (t : Term) : Prop :=
  t.const? = some 0 ∨ t.const? = none ∧ t.linearVerdict = .zero

/-- A term that has the linear form of the constant zero is told to be zero. -/
theorem linearVerdict_of_zero {w : Nat} (h : a.linearForm = { bits := w }) :
    a.linearVerdict = .zero := by
  unfold linearVerdict
  split
  · rfl
  · rw [h]
    rfl

/-- **Every shape is told to be zero** if the operands have one linear form. -/
theorem XorShape.toldZero (h : XorShape w a b t) (hform : a.linearForm = b.linearForm) :
    t.ToldZero := by
  cases h with
  | @constants m n ha hb =>
    rw [linearForm_of_const? ha, linearForm_of_const? hb] at hform
    obtain rfl : m = n := congrArg LinearForm.constant hform
    exact .inl (congrArg some ((congrArg _ (Word.xor_self w m)).trans (Nat.zero_mod _)))
  | same _ => exact .inl (congrArg some (Nat.zero_mod _))
  | left ha hb =>
    exact .inr ⟨ha, linearVerdict_of_zero (hform.trans (linearForm_of_const? hb))⟩
  | right ha hb =>
    exact .inr ⟨hb, linearVerdict_of_zero (hform.symm.trans (linearForm_of_const? ha))⟩
  | node =>
    refine .inr ⟨rfl, ?_⟩
    unfold linearVerdict
    rw [isXorOfEqualForms, if_pos (decide_eq_true hform)]

/-- The exclusive or of a term with itself is the constant zero. -/
theorem const?_mkXor_self (w : Nat) (a : Term) : (mkBinary .xor w a a).const? = some 0 := by
  cases ha : a.const? with
  | some n =>
    rw [mkBinary_of_some ha ha, Word.xor_self]
    exact congrArg some (Nat.zero_mod _)
  | none =>
    rw [mkBinary_of_none ha, mkBinaryOpen, if_pos rfl]
    exact congrArg some (Nat.zero_mod _)

end Term

theorem Symbolic.proveZero_of_const? {σ : Type} [Solver σ] {t : Term}
    (h : t.const? = some 0) (s : Symbolic σ) : (proveZero t s).1 = .zero := by
  unfold proveZero
  rw [h]
  rfl

theorem Term.ToldZero.proveZero {t : Term} (h : t.ToldZero) {s : Symbolic Backend}
    (hs : s.Normalizes) : (Symbolic.proveZero t s).1 = .zero := by
  rcases h with hconst | ⟨hopen, hverdict⟩
  · exact Symbolic.proveZero_of_const? hconst s
  · obtain ⟨s', hprove, -⟩ := hs.proveZero hopen
    rw [hprove, hverdict]

theorem Interval.exact_zero (w : Nat) : exact w 0 = ⟨0, 0⟩ := by
  unfold exact Word.truncate
  rw [Nat.zero_mod]
  rfl

/-- A two-operand operation on values whose terms can be had has the folded term. -/
theorem Value.binary_of_symbolic? {active : DomainSet} {a b : Value} {s t : Term} (op : BinaryOp)
    (hs : active.contains .symbolic = true) (hbits : a.bits = b.bits) (hsa : a.symbolic? = some s)
    (hsb : b.symbolic? = some t) (hwidth : (Term.mkBinary op a.bits s t).width = a.bits) :
    ∃ v, binary active op a b = .ok v ∧ v.bits = a.bits ∧
      v.symbolic = some (.mkBinary op a.bits s t) := by
  have hfits : ∀ u, some (Term.mkBinary op a.bits s t) = some u → u.width = a.bits := by
    rintro _ ⟨⟩
    exact hwidth
  unfold binary sameWidth
  rw [if_pos hbits, hsa, hsb]
  exact ⟨_, assemble_of_width active _ _ hfits, rfl, only_eq_some.2 ⟨hs, rfl⟩⟩

theorem Value.refineZero_of_proveZero {σ : Type} [Solver σ] {v : Value} {active : DomainSet}
    {s : Symbolic σ} {t : Term} (hi : active.contains .interval = true)
    (hs : active.contains .symbolic = true) (ht : v.symbolic = some t)
    (hzero : (Symbolic.proveZero t s).1 = .zero) :
    ∃ s', v.refineZero active s = ({ v with interval := some (.exact v.bits 0) }, s') := by
  unfold refineZero
  simp only [hs, hi, ht, Bool.and_true, if_true]
  rw [applyState_bind, if_pos hzero]
  exact ⟨_, rfl⟩

namespace Engine

section

variable {σ : Type} [Solver σ] {e : Engine σ} {a b : Value} {s t : Term}

/-- Does a computation succeed with a value of the given width whose range is zero alone? -/
def PinsZero (act : EngineM σ Value) (e : Engine σ) (bits : Nat) : Prop :=
  ∃ v e', act e = (.ok v, e') ∧ v.bits = bits ∧ v.interval = some ⟨0, 0⟩

/-- **An exclusive or pins zero** if the term of its result is proved zero. -/
theorem xor_pinsZero (hi : e.machine.active.contains .interval = true)
    (hs : e.machine.active.contains .symbolic = true) (hbits : a.bits = b.bits)
    (ha : ∀ t, a.symbolic = some t → t.width = a.bits)
    (hb : ∀ t, b.symbolic = some t → t.width = b.bits)
    (hsa : a.symbolic? = some s) (hsb : b.symbolic? = some t)
    (hzero : (Symbolic.proveZero (.mkBinary .xor a.bits s t) e.machine.symbolic).1 = .zero) :
    PinsZero (xor a b) e a.bits := by
  have hwidth : (Term.mkBinary .xor a.bits s t).width = a.bits :=
    (Term.xorShape_mkBinary a.bits s t).width (width_symbolic? ha hsa)
      ((width_symbolic? hb hsb).trans hbits.symm)
  obtain ⟨v, hv, hvbits, hvterm⟩ := Value.binary_of_symbolic? .xor hs hbits hsa hsb hwidth
  obtain ⟨s', hpinned⟩ := Value.refineZero_of_proveZero hi hs hvterm hzero
  refine ⟨{ v with interval := some (.exact v.bits 0) }, e.withSymbolic s', ?_, hvbits,
    congrArg some (Interval.exact_zero v.bits)⟩
  unfold xor
  rw [apply_get_bind, apply_check_ok hv]
  show symbolically _ e = _
  unfold symbolically onMachine Machine.symbolically
  rw [apply_lift, hpinned]
  rfl

end

/-- **Exclusive or finds equal words.** While ranges and terms are active, take values of one width
from which terms can be had, whatever else is known of them. If the terms have one linear form,
the built-in solver has the range of the exclusive or pinned to zero. The exclusive or of a value
with itself is pinned to zero with any solver, or none. -/
theorem xor_finds_equal {a b : Value} {s t : Term} (hbits : a.bits = b.bits)
    (ha : ∀ u, a.symbolic = some u → u.width = a.bits)
    (hb : ∀ u, b.symbolic = some u → u.width = b.bits)
    (hsa : a.symbolic? = some s) (hsb : b.symbolic? = some t) :
    (s.linearForm = t.linearForm → ∀ e : Engine Backend,
      e.machine.active.contains .interval = true → e.machine.active.contains .symbolic = true →
      e.machine.symbolic.Normalizes → PinsZero (xor a b) e a.bits) ∧
    ∀ (σ : Type) [Solver σ] (e : Engine σ),
      e.machine.active.contains .interval = true → e.machine.active.contains .symbolic = true →
      PinsZero (xor a a) e a.bits := by
  refine ⟨fun hform e hi hs hsolver => ?_, fun σ _ e hi hs => ?_⟩
  · have htold := (Term.xorShape_mkBinary a.bits s t).toldZero hform
    exact xor_pinsZero hi hs hbits ha hb hsa hsb (htold.proveZero hsolver)
  · have hconst := Term.const?_mkXor_self a.bits s
    exact xor_pinsZero hi hs rfl ha ha hsa hsa (Symbolic.proveZero_of_const? hconst _)

/-- A word that is known to be at most 9, plus two, and two plus the word: the terms differ, the
range of their exclusive or is zero alone. -/
theorem xor_finds_equal_sum :
    let e : Engine Backend := (trigger 0 (Engine.start .empty {} (some (builtIn {})))).2
    let x : Term := .var 16 0
    let a : Value := ⟨16, none, some ⟨2, 11⟩, some (.binary .add 16 x (.const 16 2))⟩
    let b : Value := ⟨16, none, some ⟨2, 11⟩, some (.binary .add 16 (.const 16 2) x)⟩
    a.symbolic ≠ b.symbolic ∧ PinsZero (xor a b) e 16 ∧ PinsZero (xor a a) e 16 := by
  intro e x a b
  have hwidth : ∀ u, a.symbolic = some u → u.width = a.bits := by
    rintro _ ⟨⟩
    rfl
  have hwidth' : ∀ u, b.symbolic = some u → u.width = b.bits := by
    rintro _ ⟨⟩
    rfl
  obtain ⟨hequal, hself⟩ := xor_finds_equal (a := a) (b := b) rfl hwidth hwidth' rfl rfl
  exact ⟨by decide, hequal (by decide +kernel) e rfl rfl ⟨_, rfl⟩, hself Backend e rfl rfl⟩

end Engine

end Lockstep
