/-
# The analysis does not show

A run shows the concrete machine the same outcome whatever is analysed on the
way: the number of steps, the stop, the numbers in the registers, the bus and
the last trap do not depend on the trigger, the configuration or the solver.
Each of two such runs is the run of one concrete machine.

Key definitions: `Concrete.Result`, `Run.concrete`.
Key theorems: `Engine.fetchLoop_concrete`, `Job.run_concrete`, `Job.run_independent`.
-/
import Lockstep.CommandLine
import Lockstep.Proofs.Run.Seeds

namespace Lockstep

/-- What a finished run has of the concrete machine. -/
structure Concrete.Result where
  steps : Nat
  stop : Stop
  registers : Register → Option Nat
  bus : Bus
  lastTrap : Option Nat

/-- What is left of a run without its analysis. -/
def Run.concrete {σ : Type} (r : Run σ) : Concrete.Result where
  steps := r.steps
  stop := r.stop
  registers x := (r.engine.machine.registers.get x).concrete
  bus := r.engine.machine.bus
  lastTrap := r.engine.lastTrap

/-- The outcome of a loop of the concrete machine. -/
def Concrete.Result.ofLoop (loop : Nat × Stop × Concrete.State) : Concrete.Result where
  steps := loop.1
  stop := loop.2.1
  registers x := some (loop.2.2.registers x)
  bus := loop.2.2.bus
  lastTrap := loop.2.2.lastTrap

namespace Engine

variable {σ : Type} {V : Widths} {e : Engine σ}

/-! ### The trigger -/

theorem nextAddress?_eq (he : e.Ready V) : e.nextAddress? = some (e.registerNumber .eip) :=
  Value.known?_of_concrete (he.registerNumber .eip)

/-- A trigger at the next address changes nothing that the concrete machine has. -/
theorem trigger_settled (h : e.Settled V) :
    ∃ e', trigger (e.registerNumber .eip) e = (.ok (), e') ∧ e'.Settled V ∧
      e'.concreteState = e.concreteState := by
  cases hphase : e.governor.isTriggered with
  | true => exact ⟨e, trigger_of_isTriggered hphase _, h, rfl⟩
  | false =>
    obtain ⟨e', hact, hg, hlocated⟩ := trigger_located h.ready hphase (e.registerNumber .eip)
    have htrig : e'.governor.isTriggered = true := by
      rw [hg]
      rfl
    have hallowed : e'.governor.allowed = e.governor.allowed := by
      rw [hg]
      rfl
    refine ⟨e', hact, ⟨hlocated.ready h.ready h.allowed fun _ => htrig,
      hlocated.staged.trans h.staged, hallowed ▸ h.allowed, fun hidle => ?_,
      fun _ => hlocated.active.trans hallowed.symm⟩, ?_⟩
    · rw [htrig] at hidle
      cases hidle
    · have htruncate : Word.truncate addressBits (e.registerNumber .eip) =
          e.registerNumber .eip := Word.truncate_of_lt (h.ready.registerNumber_lt .eip)
      rw [hlocated.concreteState h.ready h.allowed fun _ => htrig, htruncate]
      exact Concrete.State.set_self _ _

theorem target_settled (h : e.Settled V) (target : Option Nat) :
    ∃ e', (if target = some (e.registerNumber .eip) then (trigger (e.registerNumber .eip) e).2
        else e) = e' ∧ e'.Settled V ∧ e'.concreteState = e.concreteState := by
  by_cases htarget : target = some (e.registerNumber .eip)
  · obtain ⟨e', hact, hsettled, hstate⟩ := trigger_settled h
    exact ⟨e', by rw [if_pos htarget, hact], hsettled, hstate⟩
  · exact ⟨e, if_neg htarget, h, rfl⟩

/-! ### The loop -/

/-- What a run shows is what the engine at its end and the loop do. -/
theorem concrete_mk (h : e.Ready V) (steps : Nat) (stop : Stop) :
    (Run.mk steps stop e).concrete = .ofLoop (steps, stop, e.concreteState) := by
  unfold Run.concrete Concrete.Result.ofLoop
  congr 1
  funext x
  exact h.registerNumber x

variable [Solver σ]

/-- **The loop**, by induction on the steps that are left: the trigger and every instruction
do what they do in the concrete machine. -/
theorem fetchLoop_concrete {program : Nat → Option Instruction}
    (hprogram : ∀ a i, program a = some i → i.address = a ∧ i.Defined ∧ i.WideAddresses)
    (hfresh : ∀ n, V.Fresh n) (target : Option Nat) (limit left steps : Nat) (h : e.Settled V) :
    (e.fetchLoop program target limit left steps).concrete =
      .ofLoop (e.concreteState.fetchLoop program limit left steps) := by
  induction left generalizing e steps with
  | zero => exact concrete_mk h.ready steps _
  | succ left ih =>
    obtain ⟨e₁, he₁, hsettled, hstate⟩ := target_settled h target
    have heip : e.concreteState.registers .eip = e.registerNumber .eip := rfl
    unfold fetchLoop Concrete.State.fetchLoop
    rw [nextAddress?_eq h.ready, heip]
    dsimp only
    rw [he₁]
    cases hi : program (e.registerNumber .eip) with
    | none =>
      rw [← hstate]
      exact concrete_mk hsettled.ready steps _
    | some i =>
      obtain ⟨haddress, hdef, hwide⟩ := hprogram _ i hi
      have hexecuted := execute_executed hdef (hfresh _) hsettled
      have hstep := hexecuted.concrete hwide
        ((congrArg (fun c : Concrete.State => c.registers .eip) hstate).trans haddress.symm)
      rw [hstate] at hstep
      dsimp only
      rw [hstep]
      rcases hout : execute i e₁ with ⟨r, e₂⟩
      rw [hout] at hexecuted
      cases r with
      | ok _ => exact ih (steps + 1) hexecuted.settled
      | error f => exact concrete_mk hexecuted.settled.ready steps _

end Engine

/-! ### Whole runs -/

/-- The concrete machine at the start. -/
def Concrete.State.start (bus : Bus) (f : RegisterFile) : State where
  registers r := ((f.get r).concrete).getD 0
  bus := bus
  staged := none
  lastTrap := none

theorem Job.instruction?_eq_some {j : Job} {a : Nat} {i : Instruction}
    (h : j.instruction? a = some i) : i ∈ j.instructions ∧ i.address = a := by
  refine ⟨List.mem_reverse.1 (List.mem_of_find?_eq_some h), ?_⟩
  have haddress := List.find?_some h
  exact of_decide_eq_true haddress

/-- **A run is a run of the concrete machine**, from the seeded registers. -/
theorem Job.run_concrete {σ : Type} [Solver σ] (j : Job) (hdef : ∀ i ∈ j.instructions, i.Defined)
    (hwide : ∀ i ∈ j.instructions, i.WideAddresses) (limit : Nat) (bus : Bus) (config : Config)
    (solver : Option σ) (journal : Journal) :
    (j.run limit ((Engine.start bus config solver).withJournal journal)).map Run.concrete =
      (j.seedRegisters (.ofVariables 0)).map fun f =>
        .ofLoop ((Concrete.State.start bus f).fetchLoop j.instruction? limit limit 0) := by
  let e := (Engine.start bus config solver).withJournal journal
  have hprogram : ∀ a i, j.instruction? a = some i → i.address = a ∧ i.Defined ∧
      i.WideAddresses := fun a i h => by
    obtain ⟨hmem, haddress⟩ := instruction?_eq_some h
    exact ⟨haddress, hdef i hmem, hwide i hmem⟩
  have hregisters : e.machine.registers = .ofVariables 0 := rfl
  unfold Job.run
  rw [Job.seed_eq, hregisters]
  cases hseed : j.seedRegisters (.ofVariables 0) with
  | error f => rfl
  | ok f =>
    have hsettled := Engine.start_settled bus config solver journal
      (Job.seeded_seedRegisters RegisterFile.seeded_start hseed)
    exact congrArg Except.ok (Engine.fetchLoop_concrete hprogram (fun _ _ _ => trivial) j.trigger
      limit limit 0 hsettled)

/-- **The analysis does not show.** For a job without anything undefined, all of whose addresses
have the width of addresses, the outcome of a run does not depend on the trigger, the
configuration and the solver, nor on what the journal keeps. -/
theorem Job.run_independent {σ τ : Type} [Solver σ] [Solver τ] (j : Job)
    (hdef : ∀ i ∈ j.instructions, i.Defined) (hwide : ∀ i ∈ j.instructions, i.WideAddresses)
    (limit : Nat) (bus : Bus) (trigger trigger' : Option Nat) (config config' : Config)
    (solver : Option σ) (solver' : Option τ) (journal journal' : Journal) :
    (({ j with trigger } : Job).run limit
        ((Engine.start bus config solver).withJournal journal)).map Run.concrete =
      (({ j with trigger := trigger' } : Job).run limit
        ((Engine.start bus config' solver').withJournal journal')).map Run.concrete := by
  rw [Job.run_concrete { j with trigger } hdef hwide limit bus config solver journal,
    Job.run_concrete { j with trigger := trigger' } hdef hwide limit bus config' solver' journal']
  rfl

/-- A run that is triggered at once, with the built-in solver, and one that never is. -/
theorem Job.run_independent_store :
    let j : Job :=
      { entry := 0
        instructions := [⟨0, 2, .other, "", [.store 32 (.register "ebx")
          (.binary .add (.register "eax") (.memory 32 (.register "ecx")))]⟩] }
    (({ j with trigger := some 0 } : Job).run 2
        ((Engine.start .empty {} (some (Engine.builtIn {}))).withJournal {})).map Run.concrete =
      (({ j with trigger := none } : Job).run 2
        ((Engine.start .empty {} (none : Option Backend)).withJournal {})).map Run.concrete := by
  have hebx : Register.ofName? "ebx" = some .ebx := Register.ofName?_name .ebx
  have hecx : Register.ofName? "ecx" = some .ecx := Register.ofName?_name .ecx
  refine Job.run_independent _ ?_ ?_ 2 .empty _ _ {} {} _ _ {} {}
  · simp [Instruction.Defined, Statement.Defined, Expr.Defined]
  · simp [Instruction.WideAddresses, Statement.WideAddresses, Expr.WideAddresses, Expr.width?,
      hebx, hecx, Register.bits, addressBits]

/-- What is left of the end of a command without the analysis, which may also end it where a
number does not fit. -/
def Outcome.concrete : Outcome → Option (Except String Concrete.Result)
  | .misuse => none
  | .failure message => some (.error message)
  | .finished run => some (.ok run.concrete)

namespace CommandLine

theorem concrete_runJob (o : Options) (c : Config) (limit : Option Level) (j : Job) :
    (runJob o c limit j).concrete =
      some ((({ j with trigger := o.trigger.or j.trigger } : Job).run o.stepLimit
        ((Engine.start (Bus.empty.setBytes j.memory) (o.configure c)
          (some (Engine.builtIn c))).withJournal { limit })).map Run.concrete
        |>.mapError Fault.message) := by
  unfold runJob
  dsimp only
  split <;> rename_i r hrun
  · have hrun : ({ j with trigger := o.trigger.or j.trigger } : Job).run o.stepLimit
        ((Engine.start (Bus.empty.setBytes j.memory) (o.configure c)
          (some (Engine.builtIn c))).withJournal { limit }) = .ok r := hrun
    rw [hrun]
    show some (Except.ok (Run.concrete (if _ then r else r.overflow))) = _
    split <;> rfl
  · have hrun : ({ j with trigger := o.trigger.or j.trigger } : Job).run o.stepLimit
        ((Engine.start (Bus.empty.setBytes j.memory) (o.configure c)
          (some (Engine.builtIn c))).withJournal { limit }) = .error r := hrun
    rw [hrun]
    rfl

/-- **The options do not show**, but for the limit on the steps. -/
theorem runJob_independent (j : Job) (hdef : ∀ i ∈ j.instructions, i.Defined)
    (hwide : ∀ i ∈ j.instructions, i.WideAddresses) (o o' : Options)
    (hlimit : o.stepLimit = o'.stepLimit) (c c' : Config) (limit limit' : Option Level) :
    (runJob o c limit j).concrete = (runJob o' c' limit' j).concrete := by
  rw [concrete_runJob, concrete_runJob,
    Job.run_concrete { j with trigger := o.trigger.or j.trigger } hdef hwide,
    Job.run_concrete { j with trigger := o'.trigger.or j.trigger } hdef hwide, hlimit]
  rfl

end CommandLine

end Lockstep
