/-
# Solvers that are right

A solver is right over the widths of the variables if its verdicts on terms
typed there are. Every solver that is right on all well-typed terms is right
over the widths that allow everything; the built-in solver, which knows
variables by their numbers alone, is right wherever each has one width. Asking
it changes neither the number of the next variable nor what is asked.

Key definitions: `Solver.RightOver`, `Solver.ZeroRightOver`, `Widths.below`.
Key theorems: `Symbolic.proveZero_right`, `Symbolic.eval_of_proveZero`,
`Symbolic.nextVariable_proveZero`, `Backend.rightOver`.
-/
import Lockstep.Proofs.Computation
import Lockstep.Proofs.Solver.Verdict
import Lockstep.Symbolic

namespace Lockstep

/-- Are the verdicts of the solver right, in any state and on any term typed over `V`? Those of
a solver that is right on all well-typed terms are, for every `V`. -/
def Solver.RightOver (σ : Type) [Solver σ] (V : Widths) : Prop :=
  ∀ (s : σ) (t : Term) (v : Verdict), t.Typed V → (Solver.askZero s t).1.verdict = .ok v → v.Right t

/-- Is every term typed over `V` that the solver says is zero, in any state, zero under every
assignment? Other verdicts may be wrong. -/
def Solver.ZeroRightOver (σ : Type) [Solver σ] (V : Widths) : Prop :=
  ∀ (s : σ) (t : Term), t.Typed V → (Solver.askZero s t).1.verdict = .ok .zero →
    ∀ ρ, t.eval ρ = 0

theorem Solver.RightOver.zero {σ : Type} [Solver σ] {V : Widths} (h : Solver.RightOver σ V) :
    Solver.ZeroRightOver σ V :=
  fun s t ht hv => h s t .zero ht hv

/-- The widths of the variables below a number. -/
def Widths.below (V : Widths) (n : Nat) : Widths := fun id w => V id w ∧ id < n

theorem Widths.below_mono (V : Widths) {m n : Nat} (h : m ≤ n) :
    ∀ id w, V.below m id w → V.below n id w :=
  fun _ _ hid => ⟨hid.1, Nat.lt_of_lt_of_le hid.2 h⟩

/-- The built-in solver is right where each variable has one width. -/
theorem Normalizer.rightOver {V : Widths} (hV : V.Functional) :
    Solver.RightOver Normalizer V := by
  rintro s t v ht ⟨⟩
  exact Term.linearVerdict_right hV ht

/-- The solvers at hand are right where each variable has one width. -/
theorem Backend.rightOver {V : Widths} (hV : V.Functional) : Solver.RightOver Backend V := by
  rintro s t v ht h
  cases s with
  | normalizer n =>
    obtain ⟨⟩ := h
    exact Term.linearVerdict_right hV ht
  | offline => cases h

theorem Verdict.ofNumber_right {t : Term} {n : Nat} (h : t.const? = some n) :
    (Verdict.ofNumber n).Right t := by
  cases t with
  | const w k =>
    obtain rfl : k = n := Option.some.inj h
    unfold ofNumber
    split
    · exact fun _ => ‹_›
    · exact fun _ => ‹_›
  | _ => cases h

namespace Symbolic

variable {σ : Type} [Solver σ] {V : Widths}

/-- A query leaves the number of the next variable, and its verdict is that of the solver. -/
theorem queryZero_spec (t : Term) (s : Symbolic σ) :
    (queryZero t s).2.nextVariable = s.nextVariable ∧
      ∀ v, (queryZero t s).1 = .ok v →
        ∃ state, s.solver = some state ∧ (Solver.askZero state t).1.verdict = .ok v := by
  obtain ⟨next, solver, journal⟩ := s
  cases solver with
  | none => exact ⟨rfl, nofun⟩
  | some state =>
    unfold queryZero
    rw [apply_bind_ok (apply_get _)]
    dsimp only
    rw [apply_bind_ok (apply_modify _ _)]
    cases hverdict : (Solver.askZero state t).1.verdict with
    | ok v' =>
      refine ⟨rfl, ?_⟩
      rintro v ⟨⟩
      exact ⟨state, rfl, hverdict⟩
    | error failure => exact ⟨rfl, nofun⟩

/-- What is no constant takes a query, if there is a solver, and a failed one decides nothing. -/
theorem proveZero_cases {t : Term} (hc : t.const? = none) (s : Symbolic σ) :
    proveZero t s = (.unknown, s) ∨
      (∃ v s', queryZero t s = (.ok v, s') ∧ proveZero t s = (v, s')) ∨
      ∃ f s' s'', queryZero t s = (.error f, s') ∧ proveZero t s = (.unknown, s'') ∧
        s''.nextVariable = s'.nextVariable := by
  unfold proveZero
  rw [hc]
  dsimp only
  rw [applyState_bind]
  split
  · exact .inl rfl
  · rw [applyState_bind]
    rcases hquery : queryZero t s with ⟨r, s'⟩
    have hrun : (queryZero t).run ((get : StateM (Symbolic σ) (Symbolic σ)) s).2 = (r, s') :=
      hquery
    rw [hrun]
    cases r with
    | ok v => exact .inr (.inl ⟨v, s', rfl, rfl⟩)
    | error f => exact .inr (.inr ⟨f, s', _, rfl, rfl, rfl⟩)

theorem nextVariable_proveZero (t : Term) (s : Symbolic σ) :
    (proveZero t s).2.nextVariable = s.nextVariable := by
  have hquery := (queryZero_spec t s).1
  cases hc : t.const? with
  | some n =>
    unfold proveZero
    rw [hc]
    rfl
  | none =>
    obtain heq | ⟨v, s', hs, heq⟩ | ⟨f, s', s'', hs, heq, hnext⟩ := proveZero_cases hc s
    · rw [heq]
    · rw [heq]
      rwa [hs] at hquery
    · rw [heq, hnext]
      rwa [hs] at hquery

/-- A verdict on a term is that of its number if it is a constant, and otherwise one that the
solver gives in some state, or none. -/
theorem proveZero_verdict (t : Term) (s : Symbolic σ) :
    (∃ n, t.const? = some n ∧ (proveZero t s).1 = .ofNumber n) ∨
      (∃ state : σ, (Solver.askZero state t).1.verdict = .ok (proveZero t s).1) ∨
      (proveZero t s).1 = .unknown := by
  have hquery := (queryZero_spec t s).2
  cases hc : t.const? with
  | some n =>
    refine .inl ⟨n, rfl, ?_⟩
    unfold proveZero
    rw [hc]
    rfl
  | none =>
    obtain heq | ⟨v, s', hs, heq⟩ | ⟨f, s', s'', -, heq, -⟩ := proveZero_cases hc s
    · exact .inr (.inr (by rw [heq]))
    · rw [hs] at hquery
      obtain ⟨state, -, hverdict⟩ := hquery v rfl
      exact .inr (.inl ⟨state, by rw [heq, hverdict]⟩)
    · exact .inr (.inr (by rw [heq]))

/-- **What is proved of a term is right**, if the solver is. -/
theorem proveZero_right (hsolver : Solver.RightOver σ V) {t : Term} (ht : t.Typed V)
    (s : Symbolic σ) : (proveZero t s).1.Right t := by
  obtain ⟨n, hc, heq⟩ | ⟨state, hverdict⟩ | heq := proveZero_verdict t s
  · rw [heq]
    exact Verdict.ofNumber_right hc
  · exact hsolver state t _ ht hverdict
  · rw [heq]
    trivial

/-- A term that is proved zero is zero, if the solver is right where it says so. -/
theorem eval_of_proveZero (hsolver : Solver.ZeroRightOver σ V) {t : Term} (ht : t.Typed V)
    {s : Symbolic σ} (hzero : (proveZero t s).1 = .zero) (ρ : Assignment) : t.eval ρ = 0 := by
  obtain ⟨n, hc, heq⟩ | ⟨state, hverdict⟩ | heq := proveZero_verdict t s
  · have hright := Verdict.ofNumber_right hc
    rw [← heq, hzero] at hright
    exact hright ρ
  · rw [hzero] at hverdict
    exact hsolver state t ht hverdict ρ
  · rw [hzero] at heq
    cases heq

end Symbolic
end Lockstep
