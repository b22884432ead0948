/-
# Jobs and reports as JSON documents

Key definitions: `Interval.ofJson?`, `Seed.ofJson?`, `Job.ofJson?`, `Job.read?`,
`Usage.toJson`, `SolverReport.toJson`, `Run.toJson`.
-/
import Lockstep.Program.Document
import Lockstep.Run

namespace Lockstep

/-! ### Jobs -/

/-- The interval of a document, its bounds as they are. -/
def Interval.ofJson? (room : Nat) (v : Json) : Option Interval := do
  let [some lo, some hi] ← v.fields? room ["lo", "hi"] | none
  return ⟨← lo.int64?, ← hi.int64?⟩

/-- The seed of a document; each of its fields may be missing or null. -/
def Seed.ofJson? (room : Nat) (v : Json) : Option Seed := do
  let [concrete, interval] ← v.fields? room ["concrete", "interval"] | none
  return {
    concrete := ← Json.withDefault none (Json.optional? Json.nat32?) concrete
    interval := ← Json.withDefault none (Json.optional? (Interval.ofJson? (room - 1))) interval }

namespace Job

/-- A list of named things, by increasing name, with one of them set. -/
def insertNamed {α : Type} (name : String) (a : α) : List (String × α) → List (String × α)
  | [] => [(name, a)]
  | (n, b) :: rest =>
    if name < n then (name, a) :: (n, b) :: rest
    else if name = n then (name, a) :: rest
    else (n, b) :: insertNamed name a rest

/-- The seeds by register name, by increasing name; of one name the last counts. -/
def seedsOfJson? (room : Nat) (v : Json) : Option (List (String × Seed)) :=
  match room, v with
  | room + 1, .object members =>
    members.foldlM
      (fun seeds (name, v) => return insertNamed (← name) (← Seed.ofJson? room v) seeds) []
  | _, _ => none

/-- The byte and its address of a document. -/
def byteOfJson? (room : Nat) (v : Json) : Option (Nat × UInt8) :=
  v.pair? room Json.nat32? (fun b => b.nat8?.map UInt8.ofNat)

/-- The job of a document; the entry and the program must be there. -/
def ofJson? (room : Nat) (v : Json) : Option Job := do
  let [registers, memory, some entry, trigger, some program] ←
    v.fields? room ["registers", "mem", "entry", "trigger", "program"] | none
  return {
    registers := ← Json.withDefault [] (seedsOfJson? (room - 1)) registers
    memory := ← Json.withDefault [] (Json.list? (room - 1) byteOfJson?) memory
    entry := ← entry.nat32?
    trigger := ← Json.withDefault none (Json.optional? Json.nat32?) trigger
    instructions := ← program.list? (room - 1) Instruction.ofJson? }

def read? (s : String) : Option Job := (Json.read? s).bind (ofJson? Json.maxDepth)

end Job

/-! ### Reports -/

/-- The document of a use of the solver. -/
def Usage.toJson (u : Usage) : Json :=
  .record [("calls", .nat u.calls), ("input_bytes", .nat u.sent), ("output_bytes", .nat u.received)]

/-- The document of a solver report. -/
def SolverReport.toJson (r : SolverReport) : Json :=
  .record [("instruction", .nat r.instruction), ("stats", r.usage.toJson)]

/-- The document of a register: its number, and range and term as text. -/
def Register.toJson (r : Register) (v : Value) : Json :=
  .record [("name", .text r.name), ("bits", .nat r.bits), ("concrete", .option .nat v.concrete),
    ("interval", .option (fun i => .text i.text) v.interval),
    ("symbolic", .option (fun t => .text t.text) v.symbolic)]

/-- The document of the bytes in memory. -/
def Bus.toJson (b : Bus) : Json :=
  .array (b.toList.map fun (a, byte) => .array [.nat a, .nat byte.toNat])

/-- The document of a finished run. -/
def Run.toJson {σ : Type} [Solver σ] (r : Run σ) : Json :=
  let e := r.engine
  .record [("steps", .nat r.steps), ("stop", .text r.stop.text),
    ("state", .text e.governor.phase.name),
    ("registers", .array (e.machine.registers.toList.map fun (r, v) => r.toJson v)),
    ("mem", e.machine.bus.toJson), ("memory_log_cells", .nat e.log.size),
    ("solver", .option Usage.toJson e.machine.symbolic.usage?),
    ("last_solver_report", .option SolverReport.toJson e.lastReport),
    ("last_trap", .option .nat e.lastTrap)]

end Lockstep
