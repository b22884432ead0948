/-
# Faults

Why an operation is refused. Each fault is of one kind, and its message
starts with the words of its kind.

Key definitions: `Fault`, `FaultKind`, `Fault.kind`, `Fault.message`.
-/
import Lockstep.Register
import Lockstep.Solver
import Lockstep.Value

namespace Lockstep

/-- The kinds of fault: a domain has no data, no solver answers, a rule of the
machine is broken, a name is no register. -/
inductive FaultKind where
  | missingData (domain : Domain)
  | solverUnavailable
  | invariant
  | unknownRegister
  deriving DecidableEq, Repr

/-- The words in front of the detail. -/
def FaultKind.opening : FaultKind → String
  | missingData d => s!"no {d.name} data available for "
  | solverUnavailable => "solver unavailable: "
  | invariant => "invariant violation: "
  | unknownRegister => "unknown register "

/-- A reason to refuse an operation. -/
inductive Fault where
  /-- A domain that is not active was asked for. -/
  | inactive (domain : Domain)
  /-- Nothing known of the value carries over to the domain. -/
  | underivable (domain : Domain) (value : Value)
  /-- A store at an address that is not known as a number. -/
  | unknownStoreAddress
  /-- A store of data that are not known as a number. -/
  | unknownStoreData
  | noSolver
  | solver (failure : SolverFailure)
  | unknownRegister (name : String)
  | width (bits : Nat)
  /-- A term of one width in a value of another. -/
  | symbolicWidth (found expected : Nat)
  | overlayWidth (update slot : Nat)
  /-- An operand of which no domain knows anything. -/
  | emptyOperand (role : String)
  | operandWidths (operation : String) (a b : Nat)
  | accessWidth (bits : Nat)
  | sliceRange (lo hi bits : Nat)
  | conditionWidth (bits : Nat)
  | registerWidth (bits : Nat) (register : Register)
  | cellAddressWidth (bits : Nat)
  | cellWidth (bits : Nat)
  | readAddressWidth (bits : Nat)
  | storeWidth (size bits : Nat)
  /-- The instruction is not the one that a domain holds to be next. -/
  | wrongAddress (domain : Domain) (found expected : Nat)
  deriving DecidableEq

namespace Fault

def kind : Fault → FaultKind
  | inactive d => .missingData d
  | underivable d _ => .missingData d
  | unknownStoreAddress => .missingData .concrete
  | unknownStoreData => .missingData .concrete
  | noSolver => .solverUnavailable
  | solver _ => .solverUnavailable
  | unknownRegister _ => .unknownRegister
  | _ => .invariant

/-- What is wrong, without the words of the kind. -/
def detail : Fault → String
  | inactive _ => "a domain that is not active"
  | underivable _ v => "value " ++ v.text
  | unknownStoreAddress => "memory write address"
  | unknownStoreData => "memory write data"
  | noSolver => "no solver attached"
  | solver failure => failure.text
  | unknownRegister name => name
  | width bits => s!"width {bits} outside 1..={maxBits}"
  | symbolicWidth found expected => s!"symbolic sub-value is {found} bits in a {expected}-bit value"
  | overlayWidth update slot => s!"cannot overlay a {update}-bit value on a {slot}-bit slot"
  | emptyOperand role => s!"{role} operand has no valid domain"
  | operandWidths operation a b => s!"{operation}: operand widths differ ({a} vs {b})"
  | accessWidth bits => s!"memory access of {bits} bits; expected 8, 16, 24 or 32"
  | sliceRange lo hi bits => s!"extract [{lo}, {hi}) from a {bits}-bit value"
  | conditionWidth bits => s!"ite condition is {bits} bits"
  | registerWidth bits r => s!"{bits}-bit value written to {r.bits}-bit register {r.name}"
  | cellAddressWidth bits => s!"memory cell address is {bits} bits, expected {maxBits}"
  | cellWidth bits => s!"memory cell holds {bits} bits, expected 8"
  | readAddressWidth bits => s!"memory read address is {bits} bits, expected {maxBits}"
  | storeWidth size bits => s!"store of {size} bits given a {bits}-bit value"
  | wrongAddress d found expected =>
    s!"{d.name} eip {hexAddress found} does not match instruction at {hexAddress expected}"

def message (f : Fault) : String := f.kind.opening ++ f.detail

end Fault

end Lockstep
