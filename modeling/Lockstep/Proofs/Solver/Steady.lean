/-
# Solvers that go by the query

A solver may keep count of its use and still give one answer to a query, however
often and after whatever else it is asked. Then what is told of a term is a
function of the term, and it is told again in every later state.

Key definitions: `Solver.after`, `Solver.AnswersBy`, `Symbolic.Steady`, `Verdict.told`.
Key theorems: `Backend.answersBy`, `Symbolic.Steady.proveZero`.
-/
import Mathlib.Data.Option.Basic
import Lockstep.Proofs.Computation
import Lockstep.Solver.Backend
import Lockstep.Symbolic

namespace Lockstep

/-- What a solver answers to each query. -/
abbrev Answers := Term → Except SolverFailure Verdict

namespace Solver

variable {σ : Type} [Solver σ]

/-- The state of a solver after queries, in order. -/
def after (q : σ) (ts : List Term) : σ := ts.foldl (fun q t => (askZero q t).2) q

/-- Does the solver answer every query by the function, whatever it was asked before? -/
def AnswersBy (f : Answers) (q : σ) : Prop := ∀ ts t, (askZero (after q ts) t).1.verdict = f t

theorem AnswersBy.verdict {f : Answers} {q : σ} (h : AnswersBy f q) (t : Term) :
    (askZero q t).1.verdict = f t := h [] t

theorem AnswersBy.next {f : Answers} {q : σ} (h : AnswersBy f q) (t : Term) :
    AnswersBy f (askZero q t).2 := fun ts u => h (t :: ts) u

end Solver

/-- What is told of a term: a constant tells itself, and all else the answer, if there is one. -/
def Verdict.told (answers : Option Answers) (t : Term) : Verdict :=
  match t.const?, answers with
  | some n, _ => .ofNumber n
  | none, some f => (f t).toOption.getD .unknown
  | none, none => .unknown

namespace Symbolic

variable {σ : Type} [Solver σ] {answers : Option Answers} {s : Symbolic σ}

/-- Does the attached solver answer by the function, or is there neither? -/
def Steady (answers : Option Answers) (s : Symbolic σ) : Prop :=
  Option.Rel (fun q f => Solver.AnswersBy f q) s.solver answers

/-- A query has the verdict of the attached solver, which then is in its next state. -/
theorem queryZero_attached {q : σ} (hq : s.solver = some q) (t : Term) :
    ∃ journal, queryZero t s =
      ((Solver.askZero q t).1.verdict.mapError Fault.solver,
        { s with solver := some (Solver.askZero q t).2, journal }) := by
  unfold queryZero
  rw [apply_get_bind, hq]
  dsimp only
  rw [apply_bind_ok (apply_modify _ _)]
  cases (Solver.askZero q t).1.verdict with
  | ok v => exact ⟨_, rfl⟩
  | error failure => exact ⟨_, rfl⟩

/-- What is no constant is put to the attached solver; a failure of it decides nothing. -/
theorem proveZero_attached {q : σ} (hq : s.solver = some q) {t : Term} (hc : t.const? = none) :
    ∃ journal, proveZero t s =
      ((Solver.askZero q t).1.verdict.toOption.getD .unknown,
        { s with solver := some (Solver.askZero q t).2, journal }) := by
  obtain ⟨journal, hquery⟩ := queryZero_attached hq t
  have hsome : ¬ s.solver.isNone = true := by simp [hq]
  have hget : (get : SymbolicM σ (Symbolic σ)) s = (s, s) := rfl
  have hrun : (queryZero t).run s = queryZero t s := rfl
  unfold proveZero
  rw [hc]
  dsimp only
  rw [applyState_bind, hget]
  dsimp only
  rw [if_neg hsome, applyState_bind, hrun, hquery]
  cases (Solver.askZero q t).1.verdict with
  | ok v => exact ⟨_, rfl⟩
  | error failure => exact ⟨_, rfl⟩

/-- **What is told of a term** in a steady state depends on the term alone, and the state stays
steady. -/
theorem Steady.proveZero (h : s.Steady answers) (t : Term) :
    (Symbolic.proveZero t s).1 = .told answers t ∧
      (Symbolic.proveZero t s).2.Steady answers := by
  unfold Verdict.told
  cases hc : t.const? with
  | some n =>
    unfold Symbolic.proveZero
    rw [hc]
    exact ⟨rfl, h⟩
  | none =>
    obtain ⟨next, solver, journal⟩ := s
    cases h with
    | none =>
      unfold Symbolic.proveZero
      rw [hc]
      exact ⟨rfl, .none⟩
    | @some q f hf =>
      obtain ⟨journal', hprove⟩ := proveZero_attached (s := ⟨next, some q, journal⟩) rfl hc
      rw [hprove, hf.verdict t]
      exact ⟨rfl, .some (hf.next t)⟩

end Symbolic
end Lockstep
