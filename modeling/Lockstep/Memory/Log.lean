/-
# The memory log

While analysis runs, each byte that is written becomes a cell: a term for the
address and a value. A read goes through the cells from the newest. A cell at
another address is skipped, one that may be at the address becomes a candidate,
and the first one that must be at the address is the base, where the walk
stops. The result is the base under a choice for each candidate; without a
base, what lies under the choices may be any byte.

Key definitions: `Cell`, `Cell.make`, `MemoryLog`, `Alias`, `Cell.classify`,
`MemoryLog.scan`, `MemoryLog.readByte`.
-/
import Lockstep.Memory.Bus
import Lockstep.Value.Operations

namespace Lockstep

/-- A byte that was written at the address a term denotes. -/
structure Cell where
  address : Term
  value : Value
  deriving DecidableEq

/-- Must two addresses be equal, may they be, or are they never? -/
inductive Alias where
  | must
  | may
  | never
  deriving DecidableEq, Repr

/-- The alias that a verdict on the difference of two addresses tells. -/
def Verdict.alias : Verdict → Alias
  | zero => .must
  | nonzero => .never
  | unknown => .may

namespace Cell

/-- A cell; its address has the width of addresses, and its value is a byte of
which some domain knows something. -/
def make (address : Term) (value : Value) : Except Fault Cell := do
  if address.width ≠ addressBits then throw (.cellAddressWidth address.width)
  if value.bits ≠ 8 then throw (.cellWidth value.bits)
  value.checkOperand "memory cell"
  pure ⟨address, value⟩

/-- The text of a cell on a line. -/
def text (c : Cell) : String := "  [" ++ c.address.text ++ "] = " ++ c.value.text ++ "\n"

end Cell

/-- The cells, the newest first. -/
structure MemoryLog where
  cells : List Cell := []
  deriving DecidableEq

variable {σ : Type}

namespace Cell

/-- The term of the byte of a cell, a new variable if it has none. -/
def term (c : Cell) : SymbolicM σ Term :=
  match c.value.symbolic? with
  | some t => pure t
  | none => Symbolic.fresh 8

/-- The byte of the cell if it is at the address, and otherwise the given one. -/
def select (address : Term) (c : Cell) (otherwise : Term) : SymbolicM σ Term := do
  let t ← c.term
  pure (.mkIte 8 (.mkEqual address c.address) t otherwise)

/-- Is the cell at the address? What folding leaves open is put to the solver,
as the difference of both addresses, if pruning is on. -/
def classify [Solver σ] (address : Term) (prune : Bool) (c : Cell) : SymbolicM σ Alias :=
  match (Term.mkEqual address c.address).const? with
  | some n => pure (if n = 1 then .must else .never)
  | none =>
    if prune then
      Verdict.alias <$> Symbolic.proveZero (.mkBinary .sub addressBits address c.address)
    else pure .may

end Cell

namespace MemoryLog

def size (log : MemoryLog) : Nat := log.cells.length

def write (log : MemoryLog) (c : Cell) : MemoryLog := ⟨c :: log.cells⟩

/-- The log with its oldest cells only, as many as given. -/
def truncate (log : MemoryLog) (size : Nat) : MemoryLog :=
  ⟨log.cells.drop (log.cells.length - size)⟩

/-- The text of a log: a line with its size, and a line for each cell. -/
def text (log : MemoryLog) : String :=
  s!"memory log ({log.size} cells, newest first):\n" ++ String.join (log.cells.map Cell.text)

/-- The candidates, the newest first, and the base, if the walk finds one. -/
def scan [Solver σ] (address : Term) (prune : Bool) :
    List Cell → SymbolicM σ (List Cell × Option Cell)
  | [] => pure ([], none)
  | c :: cs => do
    match ← c.classify address prune with
    | .never => scan address prune cs
    | .must => pure ([], some c)
    | .may =>
      let (candidates, base) ← scan address prune cs
      pure (c :: candidates, base)

/-- A term under a choice for each candidate, the oldest innermost. -/
def selectAll (address : Term) (candidates : List Cell) (otherwise : Term) : SymbolicM σ Term :=
  candidates.foldrM (Cell.select address) otherwise

/-- The number of the base, if every candidate has the same. -/
def mergeConcrete (base : Cell) (candidates : List Cell) : Option Nat :=
  if candidates.all (·.value.concrete = base.value.concrete) then base.value.concrete else none

/-- A range around two ranges, and any byte if one is missing. -/
def hullByte : Option Interval → Option Interval → Option Interval
  | some i, some j => some (i.hull 8 j)
  | _, _ => some (.top 8)

/-- A range around the base and every candidate. -/
def mergeInterval (base : Cell) (candidates : List Cell) : Option Interval :=
  candidates.foldl (fun i c => hullByte i c.value.interval?) base.value.interval?

def readByte [Solver σ] (log : MemoryLog) (address : Term) (prune : Bool) :
    ExceptT Fault (SymbolicM σ) Value := do
  if address.width ≠ addressBits then throw (.readAddressWidth address.width)
  let (candidates, base) ← (scan address prune log.cells : SymbolicM σ _)
  let note : SymbolicM σ Unit := Symbolic.note .trace fun _ =>
    s!"read [{address.text}]: {candidates.length} may-alias cells, must-alias {base.isSome}"
  note
  match base with
  | none =>
    let any : Term ← (Symbolic.fresh 8 : SymbolicM σ Term)
    let t : Term ← (selectAll address candidates any : SymbolicM σ Term)
    let v : Value := { bits := 8, interval := some (.top 8) }
    v.setSymbolic t
  | some base =>
    let t : Term ← (base.term : SymbolicM σ Term)
    let t : Term ← (selectAll address candidates t : SymbolicM σ Term)
    let v : Value :=
      { bits := 8
        concrete := mergeConcrete base candidates
        interval := mergeInterval base candidates }
    v.setSymbolic t

end MemoryLog

end Lockstep
