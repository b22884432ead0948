/-
# The governor

The governor keeps the phase of a run, which goes from idle to triggered once
and never back, the domains that the run may use, the budget of symbolic nodes
that costs it the symbolic domain, and the clock of solver reports. Nodes are
added up in 64 bits; a program in which that fails ends there.

Key definitions: `Phase`, `Governor`, `Governor.trigger`, `Governor.checkComplexity`,
`Governor.tick`.
-/
import Lockstep.Domain
import Lockstep.Term

namespace Lockstep

/-- Before and after the trigger. -/
inductive Phase where
  | idle
  | triggered
  deriving DecidableEq, Repr

def Phase.name : Phase → String
  | idle => "idle"
  | triggered => "triggered"

/-- The phase, the allowed domains, the limits, the count of instructions, and whether a number of
the run was too large for 64 bits. -/
structure Governor where
  phase : Phase := .idle
  allowed : DomainSet
  threshold : Nat
  reportInterval : Nat
  instructions : Nat := 0
  overflowed : Bool := false
  deriving DecidableEq, Repr

namespace Governor

def isTriggered (g : Governor) : Bool := g.phase = .triggered

/-- The governor after the trigger. -/
def trigger (g : Governor) : Governor := { g with phase := .triggered }

/-- Does the complexity cost the run the symbolic domain, which it still has? -/
def exceeds (g : Governor) (complexity : Nat) : Bool :=
  g.threshold < complexity && g.allowed.contains .symbolic

/-- The governor after a look at the complexity. -/
def checkComplexity (g : Governor) (complexity : Nat) : Governor :=
  { g with
    allowed := if g.exceeds complexity then g.allowed.erase .symbolic else g.allowed
    overflowed := g.overflowed || nodeLimit < complexity }

/-- One more triggered instruction. -/
def tick (g : Governor) : Governor := { g with instructions := g.instructions + 1 }

/-- Is a report due at the present count? -/
def reportDue (g : Governor) : Bool :=
  g.reportInterval ≠ 0 && g.instructions % g.reportInterval = 0

def resetCount (g : Governor) : Governor := { g with instructions := 0 }

end Governor

end Lockstep
