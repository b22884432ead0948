/-
# Bridging domains

A domain that lacks a part of a value can often build it from what the other
domains know. A term that is proved zero pins the range to zero.

Key definitions: `Value.setSymbolic`, `Value.overlay`, `Value.checkOperand`,
`Value.ensure`, `Value.ensureTerm`, `Value.refineZero`.
-/
import Lockstep.Symbolic

namespace Lockstep

/-- Is the width one that a value may have? -/
def checkWidth (bits : Nat) : Except Fault Unit :=
  if bits = 0 ∨ maxBits < bits then throw (.width bits) else pure ()

namespace Value

/-- The value with its term set; the term must have the width of the value. -/
def setSymbolic (v : Value) (t : Term) : Except Fault Value :=
  if t.width = v.bits then pure { v with symbolic := some t }
  else throw (.symbolicWidth t.width v.bits)

/-- The value with the parts of the given domains taken from one of the same width. -/
def overlay (v update : Value) (taken : DomainSet) : Except Fault Value :=
  if update.bits = v.bits then pure (v.takeParts update taken)
  else throw (.overlayWidth update.bits v.bits)

/-- An operand must have some part. -/
def checkOperand (v : Value) (role : String) : Except Fault Unit :=
  if v.validDomains.isEmpty then throw (.emptyOperand role) else pure ()

/-- The value with a part for the domain, taken from the other domains if it
has none; the domain must be active. -/
def ensure (v : Value) (active : DomainSet) (d : Domain) : Except Fault Value :=
  if !active.contains d then throw (.inactive d)
  else if v.isValid d then pure v
  else
    match d with
    | .concrete =>
      match v.known? with
      | some n => pure (v.setConcrete n)
      | none => throw (.underivable d v)
    | .interval =>
      match v.interval? with
      | some i => pure { v with interval := some i }
      | none => throw (.underivable d v)
    | .symbolic =>
      match v.symbolic? with
      | some t => v.setSymbolic t
      | none => throw (.underivable d v)

/-- The term of a value, taken from the other domains if it has none; the
symbolic domain must be active. -/
def ensureTerm (v : Value) (active : DomainSet) : Except Fault Term :=
  if !active.contains .symbolic then throw (.inactive .symbolic)
  else
    match v.symbolic? with
    | some t => pure t
    | none => throw (.underivable .symbolic v)

/-- The range of a value whose term is proved zero becomes zero. An exclusive
or of two equal terms is zero, which ranges alone cannot see. -/
def refineZero {σ : Type} [Solver σ] (v : Value) (active : DomainSet) : SymbolicM σ Value := do
  if active.contains .symbolic && active.contains .interval then
    match v.symbolic with
    | none => pure v
    | some t =>
      if (← Symbolic.proveZero t) = .zero then
        Symbolic.note .debug fun _ => "xor_ optimization triggered for interval domain"
        pure { v with interval := some (.exact v.bits 0) }
      else pure v
  else pure v

end Value

end Lockstep
