/-
# Solvers

A solver is asked one thing: is this term zero under every assignment? It
answers with a verdict or fails, and it counts its use.

Key definitions: `Verdict`, `Usage`, `SolverFailure`, `Solver`, `Term.zeroQuery`.
-/
import Lockstep.Term.Text

namespace Lockstep

/-- The answer to the question whether a term is zero: under every assignment,
under none, or not decided. -/
inductive Verdict where
  | zero
  | nonzero
  | unknown
  deriving DecidableEq, Repr

/-- The verdict on a known number. -/
def Verdict.ofNumber (n : Nat) : Verdict := if n = 0 then zero else nonzero

/-- What a solver was used for: queries, and the bytes sent and received. -/
structure Usage where
  calls : Nat := 0
  sent : Nat := 0
  received : Nat := 0
  deriving DecidableEq, Repr

/-- Why a solver gave no verdict. -/
inductive SolverFailure where
  | unavailable (detail : String)
  deriving DecidableEq, Repr

def SolverFailure.text : SolverFailure → String
  | unavailable detail => "solver backend unavailable: " ++ detail

/-- The answer to a query: a verdict or a failure, and what the solver wants
to have noted about it. -/
structure SolverReply where
  verdict : Except SolverFailure Verdict
  note : Option String := none

/-- The states of a solver. -/
class Solver (σ : Type) where
  /-- Is the term zero under every assignment? -/
  askZero : σ → Term → SolverReply × σ
  /-- The use since the last reset. -/
  usage : σ → Usage
  /-- Counts anew. -/
  resetUsage : σ → σ

/-- The declaration of a variable in a query. -/
def declaration (v : Nat × Nat) : String :=
  "(declare-fun " ++ Term.variableText v.1 ++ " () (_ BitVec " ++ toString v.2 ++ "))\n"

/-- The query that asks whether a term is ever not zero: its variables are
declared, and its difference from zero is asserted. -/
def Term.zeroQuery (t : Term) : String :=
  String.join (t.vars.map declaration) ++
    "(assert (not (= " ++ t.text ++ " " ++ Term.constText t.width 0 ++ ")))\n(check-sat)\n"

end Lockstep
