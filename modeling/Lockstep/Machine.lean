/-
# The machine

The machine holds the registers, the bus and the symbolic state, and it says
which domains are active. While stores are staged they stay off the bus, but
loads see them.

Key definitions: `Machine`, `MachineM`, `Machine.readRegister`, `Machine.writeRegister`,
`Machine.seedNamed`, `Machine.load`, `Machine.store`, `Machine.stageStores`, `Machine.commitStores`,
`Machine.discardStores`, `Machine.readMemory`, `Machine.writeMemory`.
-/
import Lockstep.Activation
import Lockstep.Memory.Bus
import Lockstep.Register.File
import Lockstep.Value.Operations

namespace Lockstep

/-- The state that operations work on. The staged stores are those of the
running step, the newest first. -/
structure Machine (σ : Type) where
  active : DomainSet := .concreteOnly
  symbolic : Symbolic σ
  registers : RegisterFile
  bus : Bus := .empty
  staged : Option (List (Nat × UInt8)) := none

/-- Computations on a machine; a fault keeps what was done before it. -/
abbrev MachineM (σ : Type) := ExceptT Fault (StateM (Machine σ))

/-- Is the width one that a memory access may have? -/
def checkAccessWidth (bits : Nat) : Except Fault Unit :=
  if bits = 8 ∨ bits = 16 ∨ bits = 24 ∨ bits = 32 then pure () else throw (.accessWidth bits)

namespace Machine

variable {σ : Type}

instance : Activation (Machine σ) where
  active := active
  setActive m d := { m with active := d }
  active_setActive _ _ := rfl

/-- The machine whose registers are new variables that are zero now. -/
def start (bus : Bus) (symbolic : Symbolic σ) : Machine σ where
  symbolic := { symbolic with nextVariable := symbolic.nextVariable + Register.all.length }
  registers := .ofVariables symbolic.nextVariable
  bus := bus

/-- A computation on the symbolic state of the machine. -/
def symbolically {α : Type} (act : ExceptT Fault (SymbolicM σ) α) : MachineM σ α := fun m =>
  let (result, symbolic) := act m.symbolic
  (result, { m with symbolic })

def note (level : Level) (message : Unit → String) : MachineM σ Unit :=
  symbolically (ExceptT.lift (Symbolic.note level message))

/-! ### Registers -/

/-- What the active domains know of a register. -/
def readRegister (m : Machine σ) (r : Register) : Value := (m.registers.get r).restrict m.active

/-- The machine with a register set in the active domains; the other domains
keep what they know. -/
def writeRegister (m : Machine σ) (r : Register) (v : Value) : Except Fault (Machine σ) := do
  if v.bits = r.bits then
    let merged ← (m.registers.get r).overlay v m.active
    pure { m with registers := m.registers.set r merged }
  else throw (.registerWidth v.bits r)

/-- What the active domains know of the named register. -/
def readNamed (m : Machine σ) (name : String) : Except Fault Value :=
  m.readRegister <$> Register.named name

/-- The machine with the named register set in the active domains. -/
def writeNamed (m : Machine σ) (name : String) (v : Value) : Except Fault (Machine σ) := do
  m.writeRegister (← Register.named name) v

/-- The machine with the named register set in every domain. -/
def seedNamed (m : Machine σ) (name : String) (v : Value) : Except Fault (Machine σ) := do
  let (_, registers) ← m.registers.replace name v
  pure { m with registers }

/-! ### Memory -/

/-- The byte at an address, as the newest staged store or else the bus has it. -/
def getByte (m : Machine σ) (address : Nat) : UInt8 :=
  match (m.staged.getD []).find? (·.1 = address) with
  | some (_, byte) => byte
  | none => m.bus.getByte address

def load (m : Machine σ) (address bits : Nat) : Nat :=
  Word.ofBytes ((List.range (bits / 8)).map fun i => m.getByte (byteAddress address i))

/-- The machine with a word stored, or staged while stores are. -/
def store (m : Machine σ) (address bits n : Nat) : Machine σ :=
  match m.staged with
  | some staged => { m with staged := some ((Bus.writes address (bits / 8) n).reverse ++ staged) }
  | none => { m with bus := m.bus.store address bits n }

/-- From now on stores are staged. -/
def stageStores (m : Machine σ) : Machine σ := { m with staged := some [] }

/-- The staged stores go to the bus, the oldest first. -/
def commitStores (m : Machine σ) : Machine σ :=
  { m with bus := m.bus.setBytes (m.staged.getD []).reverse, staged := none }

/-- The staged stores are forgotten. -/
def discardStores (m : Machine σ) : Machine σ := { m with staged := none }

/-- What the active domains know, each on its own, of a word in memory: the
number at a known address, any range, a new variable. -/
def readMemory (address : Value) (bits : Nat) : MachineM σ Value := do
  checkAccessWidth bits
  address.checkOperand "address"
  let m ← get
  if m.active.contains .concrete && address.known?.isNone then
    note .warn fun _ => "memory read with no concrete address; concrete result unknown"
  let v ← symbolically (Value.undefined m.active bits)
  pure { v with concrete := m.active.only .concrete (address.known?.map (m.load · bits)) }

/-- Stores a word; only the concrete domain has a memory of its own. -/
def writeMemory (address data : Value) : MachineM σ Unit := do
  checkAccessWidth data.bits
  address.checkOperand "address"
  data.checkOperand "data"
  let m ← get
  if m.active.contains .concrete then
    match address.known?, data.known? with
    | some a, some n => set (m.store a data.bits n)
    | none, _ => throw .unknownStoreAddress
    | some _, none => throw .unknownStoreData

end Machine

end Lockstep
