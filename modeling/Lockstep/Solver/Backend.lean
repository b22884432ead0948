/-
# The solvers at hand

`Normalizer` decides by linear forms and counts the text of its queries and
replies. `Backend` is one of the solvers that a program may attach: it, or
one that is never reachable.

Key definitions: `Normalizer`, `Backend`.
-/
import Lockstep.Solver.Linear

namespace Lockstep

/-- The built-in solver: its use so far, and whether it notes its queries. -/
structure Normalizer where
  usage : Usage := {}
  verbose : Bool := false
  deriving DecidableEq, Repr

namespace Normalizer

/-- The reply to a query as a line of text. -/
def replyText : Verdict → String
  | .zero => "unsat"
  | .nonzero => "sat"
  | .unknown => "unknown"

/-- The verdict by linear forms; the query and the reply with its line end are counted. -/
def askZero (n : Normalizer) (t : Term) : SolverReply × Normalizer :=
  let query := t.zeroQuery
  let verdict := t.linearVerdict
  let reply := replyText verdict
  let usage : Usage :=
    { calls := n.usage.calls + 1
      sent := n.usage.sent + query.utf8ByteSize
      received := n.usage.received + (reply.utf8ByteSize + 1) }
  let note := "solver input:\n" ++ query ++ "solver output: " ++ reply
  (⟨.ok verdict, if n.verbose then some note else none⟩, { n with usage })

instance : Solver Normalizer where
  askZero := askZero
  usage := Normalizer.usage
  resetUsage n := { n with usage := {} }

end Normalizer

/-- A solver that a program may attach. -/
inductive Backend where
  | normalizer (state : Normalizer)
  | offline
  deriving DecidableEq, Repr

namespace Backend

/-- The built-in solver without notes. -/
def normalizing : Backend := normalizer {}

/-- The built-in solver with notes. -/
def verbose : Backend := normalizer { verbose := true }

instance : Solver Backend where
  askZero
    | normalizer n, t => let (reply, n) := n.askZero t; (reply, normalizer n)
    | offline, _ => (⟨.error (.unavailable "backend offline"), none⟩, offline)
  usage
    | normalizer n => n.usage
    | offline => {}
  resetUsage
    | normalizer n => normalizer { n with usage := {} }
    | offline => offline

end Backend

end Lockstep
