/-
# The engine

An idle engine works in the concrete domain and on the bus alone. After the
trigger the allowed domains run in lockstep, byte writes go to the memory log,
and each instruction is looked at by the governor before and after.

Key definitions: `Engine`, `EngineM`, `Engine.start`, `Engine.trigger`,
`Engine.beforeInstruction`, `Engine.afterInstruction`, `Engine.xor`,
`Engine.readMemory`, `Engine.writeMemory`, `Engine.beginWrites`,
`Engine.commitWrites`, `Engine.discardWrites`, `Snapshot`.
-/
import Lockstep.Config
import Lockstep.Governor
import Lockstep.Machine
import Lockstep.Memory.Log
import Lockstep.Program
import Lockstep.Solver.Backend

namespace Lockstep

/-- A solver report: the count of triggered instructions, and the use of the
solver since the report before. -/
structure SolverReport where
  instruction : Nat
  usage : Usage
  deriving DecidableEq, Repr

/-- The machine with the log, the governor and the last trap and report. -/
structure Engine (σ : Type) where
  config : Config
  machine : Machine σ
  log : MemoryLog := {}
  governor : Governor
  lastTrap : Option Nat := none
  lastReport : Option SolverReport := none

/-- Computations on an engine; a fault keeps what was done before it. -/
abbrev EngineM (σ : Type) := ExceptT Fault (StateM (Engine σ))

/-! ### Snapshots -/

/-- What is known at a moment: the registers, and the log, newest cell first. -/
structure Snapshot where
  active : DomainSet
  registers : List (Register × Value)
  cells : List Cell

namespace Snapshot

/-- The line of a register; the name is filled up to four characters. -/
def registerText (r : Register) (v : Value) : String :=
  "  " ++ r.name ++ String.ofList (List.replicate (4 - r.name.length) ' ') ++ " " ++ v.text ++ "\n"

/-- The text of a snapshot: the active domains, the registers and the cells. -/
def text (s : Snapshot) : String :=
  "active domains: " ++ s.active.text ++ "\n" ++
    String.join (s.registers.map fun (r, v) => registerText r v) ++
    s!"memory log ({s.cells.length} cells):\n" ++ String.join (s.cells.map Cell.text)

end Snapshot

namespace Engine

variable {σ : Type}

/-- An idle engine over a bus with the given solver. -/
def start (bus : Bus) (config : Config) (solver : Option σ) : Engine σ where
  config
  machine := .start bus { solver }
  governor :=
    { allowed := config.allowed.insert .concrete
      threshold := config.complexityThreshold
      reportInterval := config.reportInterval }

/-- The built-in solver as the configuration asks for it. -/
def builtIn (config : Config) : Backend := .normalizer { verbose := config.solverDebug }

/-- A computation on the machine of the engine. -/
def onMachine {α : Type} (act : MachineM σ α) : EngineM σ α := fun e =>
  let (result, machine) := act e.machine
  (result, { e with machine })

/-- A computation on the symbolic state of the engine. -/
def symbolically {α : Type} (act : ExceptT Fault (SymbolicM σ) α) : EngineM σ α :=
  onMachine (Machine.symbolically act)

/-- Changes the machine, or refuses and leaves it. -/
def updateMachine (f : Machine σ → Except Fault (Machine σ)) : EngineM σ Unit := do
  let machine ← f (← get).machine
  modify fun e => { e with machine }

/-- Makes exactly the given domains active. -/
def setActive (d : DomainSet) : EngineM σ Unit :=
  modify fun e => { e with machine := { e.machine with active := d } }

/-- Notes an event after the name of the engine. -/
def note (level : Level) (message : Unit → String) : EngineM σ Unit := do
  let name := (← get).config.name
  onMachine (Machine.note level fun _ => "[" ++ name ++ "] " ++ message ())

/-- The present state of the registers and the log. -/
def snapshot (e : Engine σ) : Snapshot where
  active := e.machine.active
  registers := e.machine.registers.toList
  cells := e.log.cells

/-- The nodes of all terms in registers. -/
def complexity (e : Engine σ) : Nat :=
  e.machine.registers.toList.foldl (fun n (_, v) => n + (v.symbolic.map Term.nodeCount).getD 0) 0

/-- The address of the next instruction, if a domain pins it down. -/
def nextAddress? (e : Engine σ) : Option Nat := (e.machine.registers.get .eip).known?

def recordTrap (vector : Nat) : EngineM σ Unit := do
  note .debug fun _ => "trap vector " ++ hexPadded 2 vector
  modify fun e => { e with lastTrap := some vector }

/-! ### Trigger and governor -/

/-- Sets the address of the next instruction in the active domains. -/
def writeAddress (address : Nat) : EngineM σ Unit :=
  updateMachine fun m => do
    m.writeRegister .eip (← Value.number m.active addressBits address)

/-- Starts the analysis at an address; from then on this does nothing. -/
def trigger (target : Nat) : EngineM σ Unit := do
  let e ← get
  unless e.governor.isTriggered do
    modify fun e => { e with governor := e.governor.trigger }
    note .info fun _ =>
      "triggered at " ++ hexAddress target ++ ", domains " ++ e.governor.allowed.text
    setActive e.governor.allowed
    writeAddress target

/-- Keeps the use of the solver as a report and lets it count anew, if it was used. -/
def reportUsage [Solver σ] : EngineM σ Unit := do
  let e ← get
  match e.machine.symbolic.usage? with
  | none => pure ()
  | some usage =>
    if usage.calls ≠ 0 then
      note .info fun _ =>
        s!"solver: {usage.calls} calls, {usage.sent} bytes sent, {usage.received} bytes received"
      modify fun e =>
        { e with
          machine := { e.machine with symbolic := e.machine.symbolic.resetUsage }
          lastReport := some ⟨e.governor.instructions, usage⟩ }

/-- Looks at the complexity, activates the domains for the instruction, sets
its address and ticks the clock of reports. -/
def beforeInstruction [Solver σ] (i : Instruction) : EngineM σ Unit := do
  let e ← get
  if e.governor.isTriggered then
    let complexity := e.complexity
    modify fun e => { e with governor := e.governor.checkComplexity complexity }
    if e.governor.exceeds complexity then
      note .info fun _ =>
        s!"symbolic complexity {complexity} exceeds {e.governor.threshold}; " ++
          "symbolic domain disabled"
    let allowed := (← get).governor.allowed
    setActive (if i.kind.isTrap then .concreteOnly else allowed)
    writeAddress i.address
    modify fun e => { e with governor := e.governor.tick }
    if (← get).governor.reportDue then reportUsage

/-- Notes a snapshot and activates the allowed domains. -/
def afterInstruction (i : Instruction) : EngineM σ Unit := do
  let e ← get
  if e.governor.isTriggered then
    note .debug fun _ =>
      "after " ++ hexAddress i.address ++ " " ++ i.text ++ ":\n" ++ e.snapshot.text
    setActive e.governor.allowed

/-! ### Operations that use the log or the solver -/

/-- An exclusive or that also pins the range of a result that is proved zero. -/
def xor [Solver σ] (a b : Value) : EngineM σ Value := do
  let active := (← get).machine.active
  let v ← Value.binary active .xor a b
  symbolically (ExceptT.lift (v.refineZero active))

/-- The term of the byte at an offset from an address. -/
def byteTerm (base : Term) (offset : Nat) : Term :=
  .mkBinary .add addressBits base (.number addressBits offset)

/-- The byte at an offset, out of the log. -/
def readLogByte [Solver σ] (base : Term) (offset : Nat) : EngineM σ Value := do
  let e ← get
  symbolically (e.log.readByte (byteTerm base offset) e.config.readPruning)

/-- The word of the given number of bytes, out of the log, the low byte first. -/
def readLogBytes [Solver σ] (base : Term) (count : Nat) : EngineM σ Value := do
  let first ← readLogByte base 0
  (List.range (count - 1)).foldlM (fun lo i => do
    let byte ← readLogByte base (i + 1)
    Value.concat (← get).machine.active lo byte) first

/-- A word in memory. After the trigger it is read from the log; the number at
a known address is read from the bus, which has seen every concrete store. -/
def readMemory [Solver σ] (address : Value) (bits : Nat) : EngineM σ Value := do
  let e ← get
  if !e.governor.isTriggered then onMachine (Machine.readMemory address bits)
  else
    checkAccessWidth bits
    address.checkOperand "address"
    if !e.machine.active.contains .symbolic then onMachine (Machine.readMemory address bits)
    else
      match address.ensureTerm e.machine.active with
      | .error fault =>
        note .warn fun _ => "memory read falls back to per-domain: " ++ fault.message
        onMachine (Machine.readMemory address bits)
      | .ok base =>
        let v ← readLogBytes base (bits / 8)
        let m := (← get).machine
        let v :=
          if m.active.contains .concrete then
            match address.known? with
            | some a => v.setConcrete (m.load a bits)
            | none => v
          else v
        pure (v.restrict m.active)

/-- The cells of the bytes of a word, the low byte first. -/
def cellsOf (active : DomainSet) (base : Term) (data : Value) : Except Fault (List Cell) :=
  (List.range (data.bits / 8)).mapM fun i => do
    Cell.make (byteTerm base i) (← data.slice active (8 * i) (8 * i + 8))

/-- Stores a word: on the bus if address and data are known, and after the
trigger byte by byte in the log if the address has a term. -/
def writeMemory (address data : Value) : EngineM σ Unit := do
  let e ← get
  if !e.governor.isTriggered then onMachine (Machine.writeMemory address data)
  else
    checkAccessWidth data.bits
    address.checkOperand "address"
    data.checkOperand "data"
    if e.machine.active.contains .concrete then
      let stored ← onMachine
        (ExceptT.lift (withActive .concreteOnly (Machine.writeMemory address data)).run)
      if let .error fault := stored then
        note .warn fun _ => "concrete memory write skipped: " ++ fault.message
    if e.machine.active.contains .symbolic then
      match address.ensureTerm e.machine.active with
      | .error fault => note .warn fun _ => "memory write not logged: " ++ fault.message
      | .ok base =>
        let data := (data.ensure e.machine.active .symbolic).toOption.getD data
        let cells ← cellsOf e.machine.active base data
        modify fun e => { e with log := cells.foldl MemoryLog.write e.log }

/-! ### Writes of one step -/

/-- From now on stores are staged. -/
def beginWrites (e : Engine σ) : Engine σ := { e with machine := e.machine.stageStores }

/-- The stores of the step go to the bus. -/
def commitWrites (e : Engine σ) : Engine σ := { e with machine := e.machine.commitStores }

/-- The stores of the step are forgotten, and so are its cells: the log goes
back to the given size. -/
def discardWrites (e : Engine σ) (size : Nat) : Engine σ :=
  { e with machine := e.machine.discardStores, log := e.log.truncate size }

/-- The engine whose solver and clock count anew. -/
def resetUsage [Solver σ] (e : Engine σ) : Engine σ :=
  { e with
    machine := { e.machine with symbolic := e.machine.symbolic.resetUsage }
    governor := e.governor.resetCount }

end Engine

end Lockstep
