/-
# Programs that end where a bound does not fit

Every bound of a range is computed in 64 bits. Each definition here walks what
the one of its name does and asks whether all bounds on the way fit; a program
ends where one does not. Only a byte of the log and the operations of
expressions compute bounds.

Key definitions: `MemoryLog.readFits`, `Engine.andThen`, `Engine.evaluateFits`,
`Engine.performFits`, `Engine.stepFits`, `Engine.executeFits`, `Job.fits`.
-/
import Lockstep.Run
import Lockstep.Value.Checked

namespace Lockstep

variable {σ : Type}

namespace MemoryLog

/-- A range around two ranges, with the checks of 64 bits. -/
def checkedHull : Option Interval → Option Interval → Option (Option Interval)
  | some i, some j => some <$> Interval.Checked.hull Interval.long i 8 j
  | _, _ => some (some (.top 8))

/-- A range around the base and every candidate, with the checks of 64 bits. -/
def checkedMerge (base : Cell) (candidates : List Cell) : Option (Option Interval) :=
  candidates.foldlM (fun i c => checkedHull i c.value.interval?) base.value.interval?

/-- Do the bounds fit that a read of a byte computes? -/
def readFits [Solver σ] (log : MemoryLog) (address : Term) (prune : Bool) (s : Symbolic σ) :
    Bool :=
  if address.width ≠ addressBits then true
  else
    match (scan address prune log.cells s).1 with
    | (candidates, some base) => (checkedMerge base candidates).isSome
    | (_, none) => true

end MemoryLog

namespace Engine

/-- What is asked after a computation, if it succeeds. -/
def andThen {α : Type} (act : EngineM σ α) (next : α → Engine σ → Bool) (e : Engine σ) : Bool :=
  match act e with
  | (.ok a, e) => next a e
  | (.error _, _) => true

variable [Solver σ]

/-! ### Loads -/

def byteFits (base : Term) (offset : Nat) (e : Engine σ) : Bool :=
  e.log.readFits (byteTerm base offset) e.config.readPruning e.machine.symbolic

def bytesFit (base : Term) : List Nat → Value → Engine σ → Bool
  | [], _, _ => true
  | i :: is, lo, e =>
    byteFits base (i + 1) e &&
      andThen (readLogByte base (i + 1)) (fun byte e =>
        (Value.Checked.concat e.machine.active lo byte).isSome &&
          andThen (liftM (Value.concat e.machine.active lo byte)) (bytesFit base is) e) e

def wordFits (base : Term) (count : Nat) (e : Engine σ) : Bool :=
  byteFits base 0 e && andThen (readLogByte base 0) (bytesFit base (List.range (count - 1))) e

/-- Do the bounds fit that a load computes? -/
def loadFits (address : Value) (bits : Nat) (e : Engine σ) : Bool :=
  let base : Except Fault Term := do
    checkAccessWidth bits
    address.checkOperand "address"
    address.ensureTerm e.machine.active
  match e.governor.isTriggered, base with
  | true, .ok base => wordFits base (bits / 8) e
  | _, _ => true

/-! ### Expressions -/

/-- Do the bounds fit that an evaluation computes? -/
def evaluateFits : Expr → Engine σ → Bool
  | .const _ _, _ => true
  | .register _, _ => true
  | .memory size address, e =>
    evaluateFits address e && andThen (evaluate address) (fun a e => loadFits a size e) e
  | .binary op a b, e =>
    evaluateFits a e && andThen (evaluate a) (fun x e =>
      evaluateFits b e && andThen (evaluate b) (fun y e =>
        (Value.Checked.binary e.machine.active op x y).isSome) e) e
  | .invert a, e =>
    evaluateFits a e && andThen (evaluate a) (fun x e =>
      (Value.Checked.invert e.machine.active x).isSome) e
  | .slice a lo hi, e =>
    evaluateFits a e && andThen (evaluate a) (fun x e =>
      (Value.Checked.slice e.machine.active x lo hi).isSome) e
  | .concat lo hi, e =>
    evaluateFits lo e && andThen (evaluate lo) (fun x e =>
      evaluateFits hi e && andThen (evaluate hi) (fun y e =>
        (Value.Checked.concat e.machine.active x y).isSome) e) e
  | .isZero a, e =>
    evaluateFits a e && andThen (evaluate a) (fun x e =>
      (Value.Checked.isZero e.machine.active x).isSome) e
  | .ite cond t f, e =>
    evaluateFits cond e && andThen (evaluate cond) (fun c e =>
      evaluateFits t e && andThen (evaluate t) (fun x e =>
        evaluateFits f e && andThen (evaluate f) (fun y e =>
          (Value.Checked.ite e.machine.active c x y).isSome) e) e) e
  | .undefined _, _ => true

/-! ### Instructions -/

/-- Do the bounds fit that a statement computes? A store cuts its word into bytes, and slices
compute no number that is farther from zero than a bound of their operand. -/
def performFits : Statement → Engine σ → Bool
  | .setRegister _ value, e => evaluateFits value e
  | .store _ address value, e =>
    evaluateFits address e && andThen (evaluate address) (fun _ e => evaluateFits value e) e
  | .jump target, e => evaluateFits target e
  | .trap _, _ => true

def statementsFit : List Statement → Engine σ → Bool
  | [], _ => true
  | s :: ss, e => performFits s e && andThen (perform s) (fun _ e => statementsFit ss e) e

omit [Solver σ] in
def advanceFits (length : Nat) (e : Engine σ) : Bool :=
  match Value.number e.machine.active addressBits length with
  | .ok length =>
    (Value.Checked.binary e.machine.active .add (e.machine.readRegister .eip) length).isSome
  | .error _ => true

/-- Do the bounds fit that a step computes? -/
def stepFits (i : Instruction) (e : Engine σ) : Bool :=
  andThen (liftM (checkAddress e.machine i.address)) (fun _ e =>
    statementsFit i.statements e &&
      andThen (i.statements.forM perform) (fun _ e => i.jumps || advanceFits i.length e) e)
    e.beginWrites

/-- Do the bounds fit that an instruction computes? -/
def executeFits (i : Instruction) (e : Engine σ) : Bool :=
  if !e.governor.isTriggered then stepFits i e
  else andThen (beforeInstruction i) (fun _ e => stepFits i e) e

/-- Do the bounds fit in every instruction that is fetched? -/
def fetchFits (program : Nat → Option Instruction) (trigger : Option Nat) :
    (left : Nat) → Engine σ → Bool
  | 0, _ => true
  | left + 1, e =>
    match e.nextAddress? with
    | none => true
    | some address =>
      let e := if trigger = some address then (Engine.trigger address e).2 else e
      match program address with
      | none => true
      | some i =>
        executeFits i e && andThen (execute i) (fun _ e => fetchFits program trigger left e) e

end Engine

/-- The run, marked as one in which a number did not fit. -/
def Run.overflow (r : Run σ) : Run σ :=
  { r with
    engine := { r.engine with governor := { r.engine.governor with overflowed := true } } }

/-- Do the bounds fit that a run of the job computes? -/
def Job.fits [Solver σ] (j : Job) (limit : Nat) (e : Engine σ) : Bool :=
  match j.seed e with
  | .ok e => e.fetchFits j.instruction? j.trigger limit
  | .error _ => true

end Lockstep
