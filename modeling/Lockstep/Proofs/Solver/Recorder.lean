/-
# A solver that keeps what it is asked

A recorder answers as another solver does and keeps the queries. So what a run
asks can be read off the engine after it.

Key definitions: `Recorder`, `Symbolic.queries`.
Key theorems: `Symbolic.queries_resetUsage`, `Symbolic.queries_of_effects`.
-/
import Lockstep.Proofs.Solver.Effects

namespace Lockstep

/-- A solver with the terms that it was asked about, the newest first. -/
structure Recorder (σ : Type) where
  inner : σ
  asked : List Term := []

variable {σ : Type} [Solver σ]

instance : Solver (Recorder σ) where
  askZero s t :=
    let (reply, inner) := Solver.askZero s.inner t
    (reply, { inner, asked := t :: s.asked })
  usage s := Solver.usage s.inner
  resetUsage s := { s with inner := Solver.resetUsage s.inner }

namespace Symbolic

/-- What the solver was asked about, the newest first. -/
def queries (s : Symbolic (Recorder σ)) : List Term := (s.solver.map Recorder.asked).getD []

/-- What a solver that counts anew was asked about is still known. -/
theorem queries_resetUsage (s : Symbolic (Recorder σ)) : s.resetUsage.queries = s.queries := by
  obtain ⟨next, solver, journal⟩ := s
  cases solver <;> rfl

/-- The solver is asked about terms over variables that were given out. -/
theorem queries_of_effects {w w' : World (Symbolic (Recorder σ))}
    (h : Relation.ReflTransGen Effect w w') (hw : ∀ t ∈ w.state.queries, t.Over w.widths) :
    ∀ t ∈ w'.state.queries, t.Over w'.widths := by
  induction h with
  | refl => exact hw
  | tail _ h ih =>
    cases h with
    | note j => exact ih
    | fresh bits => exact fun t ht => (ih t ht).mono (Widths.sub_allot _ _ _)
    | @ask V s state t hsolver hover =>
      have hbefore : s.queries = state.asked := by
        unfold queries
        rw [hsolver]
        rfl
      exact List.forall_mem_cons.2 ⟨hover, fun u hu => ih u (hbefore ▸ hu)⟩

end Symbolic
end Lockstep
