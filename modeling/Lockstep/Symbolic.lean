/-
# The symbolic state

What symbolic reasoning keeps over a run: the number of the next variable,
the attached solver, if any, and the journal.

Key definitions: `Symbolic`, `SymbolicM`, `Symbolic.fresh`, `Symbolic.queryZero`,
`Symbolic.proveZero`.
-/
import Lockstep.Fault
import Lockstep.Journal

namespace Lockstep

/-- The next variable, the solver and the journal. -/
structure Symbolic (σ : Type) where
  nextVariable : Nat := 0
  solver : Option σ := none
  journal : Journal := {}

/-- Computations on the symbolic state. -/
abbrev SymbolicM (σ : Type) := StateM (Symbolic σ)

namespace Symbolic

variable {σ : Type}

/-- Notes an event; its message is made only if the journal keeps it. -/
def note (level : Level) (message : Unit → String) : SymbolicM σ Unit :=
  modify fun s => { s with journal := s.journal.note level message }

/-- A variable that was never used before. -/
def fresh (bits : Nat) : SymbolicM σ Term :=
  modifyGet fun s => (.var bits s.nextVariable, { s with nextVariable := s.nextVariable + 1 })

/-- The text of the state: the next variable and whether a solver is attached. -/
def text (s : Symbolic σ) : String :=
  "Symbolic \x7b next_var: " ++ toString s.nextVariable ++ ", solver: " ++
    toString s.solver.isSome ++ " \x7d"

/-- The journal with what a solver wants to have noted. -/
def noteReply (reply : SolverReply) (j : Journal) : Journal :=
  match reply.note with
  | none => j
  | some text => j.note .debug fun _ => text

variable [Solver σ]

def queryZero (t : Term) : ExceptT Fault (SymbolicM σ) Verdict := do
  match (← get).solver with
  | none => throw .noSolver
  | some state =>
    let (reply, state) := Solver.askZero state t
    modify fun s => { s with solver := some state, journal := noteReply reply s.journal }
    match reply.verdict with
    | .ok verdict => pure verdict
    | .error failure => throw (.solver failure)

/-- Is the term zero under every assignment? A constant decides itself; all
else takes one query, if there is a solver, and a failed one decides nothing. -/
def proveZero (t : Term) : SymbolicM σ Verdict := do
  match t.const? with
  | some n => pure (.ofNumber n)
  | none =>
    if (← get).solver.isNone then pure .unknown
    else
      match ← (queryZero t).run with
      | .ok verdict => pure verdict
      | .error fault =>
        note .warn fun _ => "solver query failed, treating as unknown: " ++ fault.message
        pure .unknown

/-- The use of the solver since the last reset. -/
def usage? (s : Symbolic σ) : Option Usage := s.solver.map Solver.usage

/-- The state in which the solver counts anew. -/
def resetUsage (s : Symbolic σ) : Symbolic σ :=
  { s with solver := s.solver.map Solver.resetUsage }

end Symbolic

end Lockstep
