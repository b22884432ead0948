/-
# Configuration

Key definitions: `Config`.
-/
import Lockstep.Domain

namespace Lockstep

/-- The settings of an engine: the name in front of its events, the number of
symbolic nodes in the registers that it may keep, the instructions from one
solver report to the next (zero for none), the domains that the trigger
activates, whether reads ask the solver to rule out cells, and whether the
built-in solver notes its queries. -/
structure Config where
  name : String := "multidomain"
  complexityThreshold : Nat := 10000
  reportInterval : Nat := 100
  allowed : DomainSet := .all
  readPruning : Bool := true
  solverDebug : Bool := false
  deriving DecidableEq, Repr

end Lockstep
