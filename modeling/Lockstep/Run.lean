/-
# Runs

A run seeds the registers and the memory of an engine, and then fetches and
executes instructions until it has to stop.

Key definitions: `Seed`, `Job`, `Job.seed`, `Stop`, `Engine.fetchLoop`, `Run`, `Job.run`.
-/
import Lockstep.Step

namespace Lockstep

/-- What a register starts with: a number, a range. -/
structure Seed where
  concrete : Option Nat := none
  interval : Option Interval := none
  deriving DecidableEq, Repr

/-- Something to run: seeds for named registers, bytes of memory, the address
to start at, the address that triggers the analysis, and the instructions. -/
structure Job where
  registers : List (String × Seed) := []
  memory : List (Nat × UInt8) := []
  entry : Nat
  trigger : Option Nat := none
  instructions : List Instruction
  deriving DecidableEq

/-- The instruction at an address; the last of several counts. -/
def Job.instruction? (j : Job) (address : Nat) : Option Instruction :=
  j.instructions.reverse.find? (·.address = address)

/-- Why a run stops. -/
inductive Stop where
  | stepLimit (limit : Nat)
  | unknownAddress
  | noInstruction (address : Nat)
  | fault (address : Nat) (fault : Fault)
  deriving DecidableEq

def Stop.text : Stop → String
  | stepLimit limit => s!"step limit {limit} reached"
  | unknownAddress => "eip is not concretely known"
  | noInstruction address => "no instruction at " ++ hexAddress address
  | fault address f => "error at " ++ hexAddress address ++ ": " ++ f.message

/-- A finished run: the number of instructions, the stop and the engine. -/
structure Run (σ : Type) where
  steps : Nat
  stop : Stop
  engine : Engine σ

namespace Engine

variable {σ : Type}

/-- The engine with what a seed says of the named register. -/
def seed (e : Engine σ) (name : String) (s : Seed) : Except Fault (Engine σ) := do
  let r ← Register.named name
  let v := e.machine.registers.get r
  let v := match s.concrete with
    | some n => v.setConcrete n
    | none => v
  let v := match s.interval with
    | some i => { v with interval := some i }
    | none => v
  return { e with machine := ← e.machine.seedNamed name v }

def noteRun (e : Engine σ) (level : Level) (message : Unit → String) : Engine σ :=
  (Machine.note level message e.machine).2 |> fun machine => { e with machine }

variable [Solver σ]

/-- Fetches and executes instructions until there is none, a fault arises or no
more steps are left; at the trigger the analysis starts. -/
def fetchLoop (program : Nat → Option Instruction) (trigger : Option Nat) (limit : Nat) :
    (left steps : Nat) → Engine σ → Run σ
  | 0, steps, e => ⟨steps, .stepLimit limit, e⟩
  | left + 1, steps, e =>
    match e.nextAddress? with
    | none => ⟨steps, .unknownAddress, e⟩
    | some address =>
      let e := if trigger = some address then (Engine.trigger address e).2 else e
      match program address with
      | none => ⟨steps, .noInstruction address, e⟩
      | some i =>
        match execute i e with
        | (.ok (), e) => fetchLoop program trigger limit left (steps + 1) e
        | (.error f, e) =>
          ⟨steps, .fault address f,
            e.noteRun .warn fun _ => "stopping at " ++ hexAddress address ++ ": " ++ f.message⟩

end Engine

namespace Job

variable {σ : Type}

/-- The engine with every seed of the job; the entry is the number in `eip`. -/
def seed (j : Job) (e : Engine σ) : Except Fault (Engine σ) := do
  let e ← j.registers.foldlM (fun e (name, s) => e.seed name s) e
  e.seed Register.eip.name { concrete := some j.entry }

/-- Runs the job, for at most the given number of instructions, from an engine
whose memory holds its bytes. -/
def run [Solver σ] (j : Job) (limit : Nat) (e : Engine σ) : Except Fault (Run σ) := do
  let e ← j.seed e
  let r := e.fetchLoop j.instruction? j.trigger limit limit 0
  let message (_ : Unit) : String :=
    "[" ++ r.engine.config.name ++ "] " ++ s!"{r.steps} instructions, {r.stop.text}"
  return { r with engine := r.engine.noteRun .info message }

end Job

end Lockstep
