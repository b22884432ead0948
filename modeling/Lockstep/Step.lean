/-
# Steps

A step runs the statements of one instruction in the active domains. Its
stores and cells take effect only if every statement succeeds.

Key definitions: `Engine.evaluate`, `Engine.perform`, `Engine.run`, `Engine.step`,
`Engine.execute`.
-/
import Lockstep.Engine

namespace Lockstep.Engine

variable {σ : Type}

/-- What a domain takes for the address of the next instruction, if it knows it. -/
def addressIn (v : Value) : Domain → Option Nat
  | .concrete => v.concrete
  | .interval => v.interval.bind (·.singleton? v.bits)
  | .symbolic => v.symbolic.bind Term.const?

/-- Every active domain that knows the address of the next instruction must
take the given one for it. -/
def checkAddress (m : Machine σ) (address : Nat) : Except Fault Unit :=
  m.active.toList.forM fun d =>
    match addressIn (m.readRegister .eip) d with
    | none => pure ()
    | some n => if n = address then pure () else throw (.wrongAddress d n address)

variable [Solver σ]

/-- A two-operand operation; an exclusive or may pin its range. -/
def combine (op : BinaryOp) (a b : Value) : EngineM σ Value :=
  match op with
  | .xor => xor a b
  | op => do Value.binary (← get).machine.active op a b

/-- The value of an expression, its operands from left to right. -/
def evaluate : Expr → EngineM σ Value
  | .const value size => do Value.number (← get).machine.active size value
  | .register name => do (← get).machine.readNamed name
  | .memory size address => do
    let address ← evaluate address
    readMemory address size
  | .binary op a b => do
    let a ← evaluate a
    let b ← evaluate b
    combine op a b
  | .invert a => do
    let a ← evaluate a
    Value.invert (← get).machine.active a
  | .slice a lo hi => do
    let a ← evaluate a
    a.slice (← get).machine.active lo hi
  | .concat lo hi => do
    let lo ← evaluate lo
    let hi ← evaluate hi
    Value.concat (← get).machine.active lo hi
  | .isZero a => do
    let a ← evaluate a
    Value.isZero (← get).machine.active a
  | .ite cond t f => do
    let cond ← evaluate cond
    let t ← evaluate t
    let f ← evaluate f
    Value.ite (← get).machine.active cond t f
  | .undefined size => do
    symbolically (Value.undefined (← get).machine.active size)

def perform : Statement → EngineM σ Unit
  | .setRegister register value => do
    let v ← evaluate value
    updateMachine (·.writeNamed register v)
  | .store size address value => do
    let a ← evaluate address
    let v ← evaluate value
    if v.bits ≠ size then throw (.storeWidth size v.bits)
    writeMemory a v
  | .jump target => do
    let v ← evaluate target
    updateMachine (·.writeRegister .eip v)
  | .trap vector => recordTrap vector

/-- Goes on to the instruction behind one of the given length. -/
def advance (length : Nat) : EngineM σ Unit :=
  updateMachine fun m => do
    let length ← Value.number m.active addressBits length
    m.writeRegister .eip (← Value.binary m.active .add (m.readRegister .eip) length)

/-- Runs the statements of an instruction and goes on, unless one of them jumped. -/
def run (i : Instruction) : EngineM σ Unit := do
  checkAddress (← get).machine i.address
  i.statements.forM perform
  unless i.jumps do advance i.length

/-- Runs an instruction with its memory effects held back until it succeeds. -/
def step (i : Instruction) : EngineM σ Unit := fun e =>
  match run i e.beginWrites with
  | (.ok (), after) => (.ok (), after.commitWrites)
  | (.error fault, after) => (.error fault, after.discardWrites e.log.size)

/-- Runs an instruction between the looks of the governor. -/
def execute (i : Instruction) : EngineM σ Unit := do
  if !(← get).governor.isTriggered then step i
  else
    let result ← ExceptT.lift (beforeInstruction i *> step i).run
    if let .error fault := result then
      note .warn fun _ => hexAddress i.address ++ " " ++ i.text ++ ": " ++ fault.message
    afterInstruction i
    liftExcept result

end Lockstep.Engine
