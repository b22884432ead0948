/-
# The concrete machine

What a program does when numbers are all that is kept: a register is a number,
a load takes the newest bytes, and a fault is the one that an engine raises
first. No domain, no log, no trigger and no solver is in sight; that an engine
does the same with its numbers is what `Lockstep.Proofs.Engine.Execute` shows.

Key definitions: `Expr.number`, `Expr.width?`, `Expr.Defined`, `Expr.WideAddresses`,
`Concrete.State`, `Concrete.perform`, `Concrete.step`, `Concrete.fetchLoop`.
Key theorems: `Expr.width?_of_number`.
-/
import Lockstep.Proofs.Computation
import Lockstep.Proofs.Memory.Bytes
import Lockstep.Run

namespace Lockstep

namespace Expr

/-! ### Expressions -/

/-- The width and the number of an expression, given the numbers in the registers and the
words in memory. What is undefined has none. -/
def number (registers : Register → Nat) (load : Nat → Nat → Nat) : Expr → Except Fault (Nat × Nat)
  | const value size => do
    checkWidth size
    pure (size, Word.truncate size value)
  | register name => do
    let r ← Register.named name
    pure (r.bits, registers r)
  | memory size address => do
    let (_, a) ← number registers load address
    checkAccessWidth size
    pure (size, load a size)
  | binary op a b => do
    let (w, m) ← number registers load a
    let (w', n) ← number registers load b
    if w = w' then pure (w, Word.binary op w m n) else throw (.operandWidths op.label w w')
  | invert a => do
    let (w, n) ← number registers load a
    pure (w, Word.invert w n)
  | slice a lo hi => do
    let (w, n) ← number registers load a
    if hi ≤ lo ∨ w < hi then throw (.sliceRange lo hi w) else pure (hi - lo, Word.slice n lo hi)
  | concat lo hi => do
    let (w, m) ← number registers load lo
    let (w', n) ← number registers load hi
    checkWidth (w + w')
    pure (w + w', Word.concat m w n w')
  | isZero a => do
    let (w, n) ← number registers load a
    pure (1, Word.isZero w n)
  | ite cond t f => do
    let (wc, c) ← number registers load cond
    let (w, m) ← number registers load t
    let (w', n) ← number registers load f
    if wc ≠ 1 then throw (.conditionWidth wc)
    else if w = w' then pure (w, Word.ite w c m n) else throw (.operandWidths "ite" w w')
  | undefined _ => throw (.inactive .concrete)

/-- The width of the value of an expression, if it has one. -/
def width? : Expr → Option Nat
  | const _ size => some size
  | register name => (Register.ofName? name).map Register.bits
  | memory size _ => some size
  | binary _ a _ => a.width?
  | invert a => a.width?
  | slice _ lo hi => some (hi - lo)
  | concat lo hi => do some ((← lo.width?) + (← hi.width?))
  | isZero _ => some 1
  | ite _ t _ => t.width?
  | undefined size => some size

/-- Is nothing in the expression undefined? -/
def Defined : Expr → Prop
  | const _ _ | register _ => True
  | memory _ a | invert a | slice a _ _ | isZero a => a.Defined
  | binary _ a b | concat a b => a.Defined ∧ b.Defined
  | ite c t f => c.Defined ∧ t.Defined ∧ f.Defined
  | undefined _ => False

/-- Has every address that is loaded from the width of addresses? -/
def WideAddresses : Expr → Prop
  | const _ _ | register _ | undefined _ => True
  | memory _ a => a.WideAddresses ∧ ∀ w, a.width? = some w → w = addressBits
  | invert a | slice a _ _ | isZero a => a.WideAddresses
  | binary _ a b | concat a b => a.WideAddresses ∧ b.WideAddresses
  | ite c t f => c.WideAddresses ∧ t.WideAddresses ∧ f.WideAddresses

theorem width?_of_number {registers : Register → Nat} {load : Nat → Nat → Nat} {x : Expr}
    {w n : Nat} (h : x.number registers load = .ok (w, n)) : x.width? = some w := by
  induction x generalizing w n with
  | const value size =>
    obtain ⟨_, -, h⟩ := bind_eq_ok h
    cases h
    rfl
  | register name =>
    obtain ⟨r, hr, h⟩ := bind_eq_ok h
    cases h
    unfold Register.named at hr
    unfold width?
    split at hr
    · rename_i r' hr'
      cases hr
      rw [hr', Option.map_some]
    · cases hr
  | memory size a _ =>
    obtain ⟨_, -, h⟩ := bind_eq_ok h
    obtain ⟨_, -, h⟩ := bind_eq_ok h
    cases h
    rfl
  | binary op a b iha _ =>
    obtain ⟨⟨w₁, m⟩, ha, h⟩ := bind_eq_ok h
    obtain ⟨⟨w₂, n₂⟩, -, h⟩ := bind_eq_ok h
    dsimp only at h
    split at h
    · cases h
      exact iha ha
    · cases h
  | invert a ih =>
    obtain ⟨_, ha, h⟩ := bind_eq_ok h
    cases h
    exact ih ha
  | slice a lo hi _ =>
    obtain ⟨_, -, h⟩ := bind_eq_ok h
    dsimp only at h
    split at h
    · cases h
    · cases h
      rfl
  | concat lo hi ihl ihh =>
    obtain ⟨_, hlo, h⟩ := bind_eq_ok h
    obtain ⟨_, hhi, h⟩ := bind_eq_ok h
    obtain ⟨_, -, h⟩ := bind_eq_ok h
    cases h
    rw [width?, ihl hlo, ihh hhi]
    rfl
  | isZero a _ =>
    obtain ⟨_, -, h⟩ := bind_eq_ok h
    cases h
    rfl
  | ite c t f _ iht _ =>
    obtain ⟨_, -, h⟩ := bind_eq_ok h
    obtain ⟨_, ht, h⟩ := bind_eq_ok h
    obtain ⟨_, -, h⟩ := bind_eq_ok h
    dsimp only at h
    split at h
    · cases h
    · split at h
      · cases h
        exact iht ht
      · cases h
  | undefined size => cases h

end Expr

/-! ### Statements and instructions -/

/-- Is nothing in the statement undefined? -/
def Statement.Defined : Statement → Prop
  | setRegister _ x | jump x => x.Defined
  | store _ a x => a.Defined ∧ x.Defined
  | trap _ => True

/-- Has every address in the statement the width of addresses? -/
def Statement.WideAddresses : Statement → Prop
  | setRegister _ x | jump x => x.WideAddresses
  | store _ a x =>
    a.WideAddresses ∧ x.WideAddresses ∧ ∀ w, a.width? = some w → w = addressBits
  | trap _ => True

/-- Is nothing in the instruction undefined? -/
def Instruction.Defined (i : Instruction) : Prop := ∀ s ∈ i.statements, s.Defined

/-- Has every address in the instruction the width of addresses? -/
def Instruction.WideAddresses (i : Instruction) : Prop := ∀ s ∈ i.statements, s.WideAddresses

namespace Concrete

/-- The numbers in the registers, the bus, the stores of the running step, the newest
first, and the last trap. -/
structure State where
  registers : Register → Nat
  bus : Bus
  staged : Option (List (Nat × UInt8))
  lastTrap : Option Nat

namespace State

def load (c : State) (address bits : Nat) : Nat :=
  Word.ofBytes ((List.range (bits / 8)).map fun i =>
    newest (c.staged.getD []) (byteAddress address i) (c.bus.getByte (byteAddress address i)))

/-- The state with a word stored, or staged while stores are. -/
def store (c : State) (address bits n : Nat) : State :=
  match c.staged with
  | some staged => { c with staged := some ((Bus.writes address (bits / 8) n).reverse ++ staged) }
  | none => { c with bus := c.bus.store address bits n }

/-- The state with a number in a register. -/
def set (c : State) (r : Register) (n : Nat) : State :=
  { c with registers := fun s => if s = r then n else c.registers s }

theorem set_self (c : State) (r : Register) : c.set r (c.registers r) = c := by
  unfold set
  congr 1
  funext s
  by_cases h : s = r
  · rw [if_pos h, h]
  · rw [if_neg h]

/-- The width and the number of an expression. -/
def number (c : State) (x : Expr) : Except Fault (Nat × Nat) := x.number c.registers c.load

/-- The state after a number of the given width was written to a register. -/
def write (c : State) (r : Register) (w n : Nat) : Except Fault State :=
  if w = r.bits then pure (c.set r n) else throw (.registerWidth w r)

def perform (c : State) : Statement → Except Fault State
  | .setRegister name x => do
    let (w, n) ← c.number x
    c.write (← Register.named name) w n
  | .store size address x => do
    let (_, a) ← c.number address
    let (w, n) ← c.number x
    if w ≠ size then throw (.storeWidth size w)
    checkAccessWidth w
    pure (c.store a w n)
  | .jump target => do
    let (w, n) ← c.number target
    c.write .eip w n
  | .trap vector => pure { c with lastTrap := some vector }

/-- The state after a change, which is the old one if the change is refused. -/
def after (c : State) : Except Fault State → Except Fault Unit × State
  | .ok c' => (.ok (), c')
  | .error f => (.error f, c)

/-- The state after statements, or the one before the statement that a fault ended. -/
def performAll (c : State) : List Statement → Except Fault Unit × State
  | [] => (.ok (), c)
  | s :: ss =>
    match c.after (c.perform s) with
    | (.ok (), c) => c.performAll ss
    | (.error f, c) => (.error f, c)

/-- The state in front of the instruction behind one of the given length. -/
def advance (c : State) (length : Nat) : State :=
  c.set .eip
    (Word.binary .add addressBits (c.registers .eip) (Word.truncate addressBits length))

/-- The state after the statements of an instruction, in front of the next one. -/
def run (c : State) (i : Instruction) : Except Fault Unit × State :=
  match c.performAll i.statements with
  | (.ok (), c) => (.ok (), if i.jumps then c else c.advance i.length)
  | (.error f, c) => (.error f, c)

/-- The state after an instruction; its stores go to the bus only if it succeeds. -/
def step (c : State) (i : Instruction) : Except Fault Unit × State :=
  match ({ c with staged := some [] } : State).run i with
  | (.ok (), c) =>
    (.ok (), { c with bus := c.bus.setBytes (c.staged.getD []).reverse, staged := none })
  | (.error f, c) => (.error f, { c with staged := none })

/-- Fetches and executes instructions until there is none, a fault arises or no more steps
are left. -/
def fetchLoop (program : Nat → Option Instruction) (limit : Nat) :
    (left steps : Nat) → State → Nat × Stop × State
  | 0, steps, c => (steps, .stepLimit limit, c)
  | left + 1, steps, c =>
    match program (c.registers .eip) with
    | none => (steps, .noInstruction (c.registers .eip), c)
    | some i =>
      match c.step i with
      | (.ok (), c') => fetchLoop program limit left (steps + 1) c'
      | (.error f, c') => (steps, .fault (c.registers .eip) f, c')

end State
end Concrete
end Lockstep
