/-
# Runs with traps

An instruction that is like a trap runs in the concrete domain alone. If it
leaves the numbers of registers and the bus as they were, then afterwards the
domains agree but for the address of the next instruction, and the next
ordinary instruction sets this in all of them. So along every run each
register is coherent, except the address straight behind a trap. Where a trap
does change a number, or where an idle engine did and a range was narrow, the
other domains keep what they knew, and the register is not coherent.

Key definitions: `Value.Coherent`, `Engine.SameNumbers`, `Engine.KeepsAtTraps`.
Key theorems: `Engine.execute_elsewhere`, `Engine.executeAll_elsewhere`,
`Engine.trigger_consistent`, `Engine.keepsAtTraps_of_traps`, `Engine.execute_coherent`,
`Engine.executeAll_coherent`, `Engine.start_describes`.
-/
import Lockstep.Proofs.Engine.Beside
import Lockstep.Proofs.Engine.Overflow

namespace Lockstep

/-! ### Coherent values -/

/-- A value with a number that lies in its range, if it has one, and that every domain which pins
the value down takes it for. -/
def Value.Coherent (v : Value) : Prop :=
  ∃ n, v.concrete = some n ∧ (∀ i, v.interval = some i → i.contains v.bits n = true) ∧
    ∀ d m, Engine.addressIn v d = some m → m = n

theorem Value.Describes.coherent {ρ : Assignment} {v : Value} {n : Nat} (h : v.Describes ρ n)
    (hle : v.bits ≤ maxBits) (hn : v.concrete = some n) : v.Coherent :=
  ⟨n, hn, fun i hi => Interval.contains_of_mem (h.interval i hi) h.lt,
    fun _ _ hm => Engine.addressIn_eq h hle hm⟩

theorem Value.not_coherent {v : Value} {n m : Nat} {d : Domain} (hn : v.concrete = some n)
    (hm : Engine.addressIn v d = some m) (hne : m ≠ n) : ¬ v.Coherent := by
  rintro ⟨k, hk, -, hpins⟩
  obtain rfl : n = k := Option.some.inj (hn.symm.trans hk)
  exact hne (hpins d m hm)

namespace Engine

variable {σ : Type} {V : Widths} {e e' : Engine σ} {start : Bus} {ρ : Assignment}

/-! ### What a trap may leave -/

/-- Are the numbers of the registers, but for the address of the next instruction, and the bus
the same? -/
structure SameNumbers (e e' : Engine σ) : Prop where
  registers : ∀ r, r ≠ .eip → e'.registerNumber r = e.registerNumber r
  bus : e'.machine.bus = e.machine.bus

/-- A register with the same number and the same parts beside it has the same value. -/
theorem SameBeside.get_eq (hbeside : e.SameBeside e') (he : e.Ready V) (he' : e'.Ready V)
    {r : Register} (hnumber : e'.registerNumber r = e.registerNumber r) :
    e'.machine.registers.get r = e.machine.registers.get r := by
  obtain ⟨hinterval, hsymbolic⟩ := hbeside.registers r
  have hconcrete : (e'.machine.registers.get r).concrete =
      (e.machine.registers.get r).concrete := by
    rw [he'.registerNumber r, he.registerNumber r, hnumber]
  exact Value.ext ((he'.bits r).trans (he.bits r).symm) hconcrete hinterval hsymbolic

/-- Beside the concrete domain, and in it but for the address, nothing has changed: so the
domains agree elsewhere as they did. -/
theorem ConsistentElsewhere.of_same (hc : e.ConsistentElsewhere start ρ) (h : e.Settled V)
    (h' : e'.Settled V) (hbeside : e.SameBeside e') (hsame : e.SameNumbers e')
    (hsub : ∀ x, e'.machine.active.contains x = true → e.machine.active.contains x = true) :
    e'.ConsistentElsewhere start ρ := by
  refine ⟨fun r hr => ?_, fun hsym => ?_⟩
  · rw [hbeside.get_eq h.ready h'.ready (hsame.registers r hr), hsame.registers r hr]
    exact Value.describes_restrict_of_sub hsub (hc.registers r hr)
  · obtain ⟨committed, hbus, hcells⟩ := hc.log (hsub _ hsym)
    refine ⟨committed, hsame.bus.trans hbus, ?_⟩
    rw [hbeside.log, h'.staged, ← h.staged]
    exact hcells

/-! ### Runs -/

variable [Solver σ]

/-- If the instruction is like a trap, then it leaves the numbers of registers, but for the
address of the next instruction, and the bus. -/
def KeepsAtTraps (e : Engine σ) (i : Instruction) : Prop :=
  i.kind.isTrap = true → e.SameNumbers (execute i e).2

theorem InstructionKind.eq_other {k : InstructionKind} (h : ¬ k.isTrap = true) : k = .other := by
  cases k <;> first | rfl | exact absurd rfl h

/-- **One instruction of a run with traps.** An ordinary one makes the domains agree, as it sets
its address first; one like a trap keeps them as they agree elsewhere. -/
theorem execute_elsewhere (hsolver : Solver.RightOver σ V) {i : Instruction} (hdef : i.Defined)
    (hkeep : KeepsAtTraps e i) (h : e.Settled V) (htrig : e.governor.isTriggered = true)
    (hfresh : V.Fresh e.machine.symbolic.nextVariable) (hc : e.ConsistentElsewhere start ρ) :
    ∃ ρ', ρ.AgreesOutside e.machine.symbolic.nextVariable
        (execute i e).2.machine.symbolic.nextVariable ρ' ∧
      (execute i e).2.ConsistentElsewhere start ρ' ∧
      (i.kind = .other → (execute i e).2.Consistent start ρ') := by
  have hout := execute_executed hdef hfresh h
  by_cases htrap : i.kind.isTrap = true
  · have hactive : (execute i e).2.machine.active = (execute i e).2.governor.allowed :=
      hout.settled.triggered (hout.phase.trans htrig)
    refine ⟨ρ, fun _ _ => rfl, ?_, fun hother => ?_⟩
    · refine hc.of_same h hout.settled (execute_trap_beside h htrig htrap) (hkeep htrap) ?_
      intro x hx
      rw [h.triggered htrig]
      exact hout.allowed x (hactive ▸ hx)
    · rw [hother] at htrap
      cases htrap
  · obtain ⟨ρ', hρ', hc'⟩ :=
      hout.sound htrig (InstructionKind.eq_other htrap) start ρ hsolver hc
    exact ⟨ρ', hρ', hc'.elsewhere, fun _ => hc'⟩

/-- What holds between two instructions holds after a run, and the phase is the same. -/
theorem executeAll_settled {is : List Instruction} (hdef : ∀ i ∈ is, i.Defined)
    (h : e.Settled V) (hfresh : V.Fresh e.machine.symbolic.nextVariable) :
    (e.executeAll is).Settled V ∧
      (e.executeAll is).governor.isTriggered = e.governor.isTriggered ∧
      V.Fresh (e.executeAll is).machine.symbolic.nextVariable := by
  induction is generalizing e with
  | nil => exact ⟨h, rfl, hfresh⟩
  | cons i is ih =>
    obtain ⟨hdi, hdis⟩ := List.forall_mem_cons.1 hdef
    have hout := execute_executed hdi hfresh h
    obtain ⟨hsettled, hphase, hfresh'⟩ := ih hdis hout.settled (hfresh.mono hout.le)
    exact ⟨hsettled, hphase.trans hout.phase, hfresh'⟩

/-- **A run with traps**, by induction on its instructions: the domains agree elsewhere after
each of them. -/
theorem executeAll_elsewhere (hsolver : Solver.RightOver σ V) {is : List Instruction}
    (hdef : ∀ i ∈ is, i.Defined) (hkeep : Throughout KeepsAtTraps e is) (h : e.Settled V)
    (htrig : e.governor.isTriggered = true)
    (hfresh : V.Fresh e.machine.symbolic.nextVariable) (hc : e.ConsistentElsewhere start ρ) :
    ∃ ρ', (∀ id, id < e.machine.symbolic.nextVariable → ρ' id = ρ id) ∧
      (e.executeAll is).ConsistentElsewhere start ρ' := by
  induction is generalizing e ρ with
  | nil => exact ⟨ρ, fun _ _ => rfl, hc⟩
  | cons i is ih =>
    obtain ⟨hdi, hdis⟩ := List.forall_mem_cons.1 hdef
    obtain ⟨hki, hkis⟩ := hkeep
    have hout := execute_executed hdi hfresh h
    obtain ⟨ρ₁, hρ₁, hc₁, -⟩ := execute_elsewhere hsolver hdi hki h htrig hfresh hc
    obtain ⟨ρ₂, hρ₂, hc₂⟩ :=
      ih hdis hkis hout.settled (hout.phase.trans htrig) (hfresh.mono hout.le) hc₁
    refine ⟨ρ₂, fun id hid => ?_, hc₂⟩
    rw [hρ₂ id (Nat.lt_of_lt_of_le hid hout.le), hρ₁ id (.inl hid)]

/-- An idle run changes nothing beside the concrete domain. -/
theorem executeAll_idle_beside {is : List Instruction} (hdef : ∀ i ∈ is, i.Defined)
    (h : e.Settled V) (hidle : e.governor.isTriggered = false)
    (hfresh : V.Fresh e.machine.symbolic.nextVariable) : e.SameBeside (e.executeAll is) := by
  induction is generalizing e with
  | nil => exact .refl e
  | cons i is ih =>
    obtain ⟨hdi, hdis⟩ := List.forall_mem_cons.1 hdef
    have hout := execute_executed hdi hfresh h
    have hrest := ih hdis hout.settled (hout.phase.trans hidle) (hfresh.mono hout.le)
    exact (execute_idle_beside h hidle i).trans hrest

omit [Solver σ] in
/-- **The trigger** sets the address of the next instruction in every allowed domain. If these
agree on all other registers, they agree. -/
theorem trigger_consistent (h : e.Settled V) (hidle : e.governor.isTriggered = false)
    (hcells : e.log.cells = []) (target : Nat)
    (hρ : ∀ r, r ≠ .eip →
      ((e.machine.registers.get r).restrict e.governor.allowed).Describes ρ (e.registerNumber r)) :
    ∃ e', trigger target e = (.ok (), e') ∧ e'.Settled V ∧ e'.governor.isTriggered = true ∧
      e'.machine.symbolic.nextVariable = e.machine.symbolic.nextVariable ∧
      e'.Consistent e.machine.bus ρ := by
  obtain ⟨e', hact, hjust, hnext, -⟩ := trigger_justTriggered h hidle hcells target
  obtain ⟨e'', hact', -, hlocated⟩ := trigger_located h.ready hidle target
  obtain rfl : e' = e'' := congrArg Prod.snd (hact.symm.trans hact')
  refine ⟨e', hact, hjust.settled, hjust.triggered, hnext, ?_⟩
  have hunder : (e.under e.governor.allowed e'.governor).ConsistentElsewhere e.machine.bus ρ := by
    refine ⟨hρ, fun _ => ⟨[], rfl, ?_⟩⟩
    show List.Forall₂ (Cell.Holds ρ) e.log.cells (e.machine.staged.getD [] ++ [])
    rw [hcells, h.staged]
    exact .nil
  have hready : (e.under e.governor.allowed e'.governor).Ready V :=
    h.ready.under h.allowed fun _ => hjust.triggered
  exact Located.consistent (e := e.under e.governor.allowed e'.governor) hlocated hready
    h.allowed (fun _ => hjust.triggered) hunder fun _ => id

/-! ### Traps alone -/

/-- Do the registers, the bus and the staged stores differ in the address of the next instruction
at most? -/
structure MovesOnly (e e' : Engine σ) : Prop where
  registers : ∀ r, r ≠ .eip → e'.machine.registers.get r = e.machine.registers.get r
  bus : e'.machine.bus = e.machine.bus
  staged : e'.machine.staged = e.machine.staged

omit [Solver σ] in
theorem MovesOnly.trans {e'' : Engine σ} (h : e.MovesOnly e') (h' : e'.MovesOnly e'') :
    e.MovesOnly e'' :=
  ⟨fun r hr => (h'.registers r hr).trans (h.registers r hr), h'.bus.trans h.bus,
    h'.staged.trans h.staged⟩

theorem performAll_traps {ss : List Statement} (htraps : ∀ s ∈ ss, ∃ v, s = .trap v)
    (e : Engine σ) : ∃ e', ss.forM perform e = (.ok (), e') ∧ e.MovesOnly e' := by
  induction ss generalizing e with
  | nil => exact ⟨e, rfl, fun _ _ => rfl, rfl, rfl⟩
  | cons s ss ih =>
    obtain ⟨⟨v, rfl⟩, hss⟩ := List.forall_mem_cons.1 htraps
    obtain ⟨e', hrest, hmoves⟩ := ih hss (perform (.trap v) e).2
    exact ⟨e', (apply_bind_ok (x := perform (.trap v)) rfl _).trans hrest, hmoves.registers,
      hmoves.bus, hmoves.staged⟩

omit [Solver σ] in
theorem advance_moves (length : Nat) (e : Engine σ) : e.MovesOnly (advance length e).2 := by
  unfold advance
  generalize hf : (fun m : Machine σ => do
    let length ← Value.number m.active addressBits length
    m.writeRegister .eip (← Value.binary m.active .add (m.readRegister .eip) length)) = f
  cases hm : f e.machine with
  | error fault =>
    rw [updateMachine_error hm]
    exact ⟨fun _ _ => rfl, rfl, rfl⟩
  | ok m =>
    rw [updateMachine_ok hm]
    subst hf
    obtain ⟨u, -, hm⟩ := bind_eq_ok hm
    obtain ⟨v, -, hm⟩ := bind_eq_ok hm
    obtain rfl := Machine.eq_of_writeRegister hm
    exact ⟨fun r hr => (RegisterFile.get_set _ _ _ _).trans (if_neg hr), rfl, rfl⟩

theorem run_moves {i : Instruction} (htraps : ∀ s ∈ i.statements, ∃ v, s = .trap v)
    (e : Engine σ) : e.MovesOnly (run i e).2 := by
  unfold run
  rw [apply_get_bind]
  cases hcheck : checkAddress e.machine i.address with
  | error fault =>
    rw [apply_check_error rfl]
    exact ⟨fun _ _ => rfl, rfl, rfl⟩
  | ok _ =>
    obtain ⟨e', hall, hmoves⟩ := performAll_traps htraps e
    rw [apply_check_ok rfl, apply_bind_ok hall]
    cases i.jumps with
    | true => exact hmoves
    | false => exact hmoves.trans (advance_moves i.length e')

theorem step_moves {i : Instruction} (htraps : ∀ s ∈ i.statements, ∃ v, s = .trap v)
    (hstaged : e.machine.staged = none) : e.MovesOnly (step i e).2 := by
  have hrun := run_moves htraps e.beginWrites
  unfold step
  rcases hout : run i e.beginWrites with ⟨fault | _, e'⟩
  · rw [hout] at hrun
    exact ⟨hrun.registers, hrun.bus, hstaged.symm⟩
  · rw [hout] at hrun
    refine ⟨hrun.registers, ?_, hstaged.symm⟩
    show e'.machine.bus.setBytes (e'.machine.staged.getD []).reverse = _
    rw [hrun.staged, hrun.bus]
    rfl

/-- **A trap without other effects** leaves the numbers of registers and the bus. -/
theorem keepsAtTraps_of_traps (h : e.Settled V) (htrig : e.governor.isTriggered = true)
    {i : Instruction} (htraps : ∀ s ∈ i.statements, ∃ v, s = .trap v) : KeepsAtTraps e i := by
  intro htrap
  obtain ⟨e₁, hbefore, -, htrig₁, -, ⟨v, -, halike⟩, -, hstaged₁⟩ :=
    beforeInstruction_entered h htrig i
  have hactive₁ : e₁.machine.active = .concreteOnly := by
    rw [halike.active, if_pos htrap]
    rfl
  have hregisters₁ : ∀ r, r ≠ .eip →
      e₁.machine.registers.get r = e.machine.registers.get r := fun r hr => by
    rw [halike.registers]
    exact (get_written _ .eip r v).trans (if_neg hr)
  have hstep := step_moves htraps hstaged₁
  obtain ⟨e₃, hact, halike₃⟩ :=
    execute_eq htrig hbefore rfl ((step_beside hactive₁ i).1 ▸ htrig₁)
  rw [hact]
  refine ⟨fun r hr => ?_, ?_⟩
  · unfold registerNumber
    rw [halike₃.registers]
    exact congrArg (fun v => v.concrete.getD 0) ((hstep.registers r hr).trans (hregisters₁ r hr))
  · rw [halike₃.bus]
    exact hstep.bus.trans halike.bus

/-! ### Registers after the trigger -/

/-- **One instruction leaves registers coherent** as the allowed domains show them, if before it
these agreed elsewhere. -/
theorem execute_coherent (hsolver : Solver.RightOver σ V) {i : Instruction} (hdef : i.Defined)
    (hkeep : KeepsAtTraps e i) (h : e.Settled V) (htrig : e.governor.isTriggered = true)
    (hfresh : V.Fresh e.machine.symbolic.nextVariable) (hc : e.ConsistentElsewhere start ρ) :
    (execute i e).2.machine.active = (execute i e).2.governor.allowed ∧
      ∀ r, (r = .eip → i.kind = .other) → ((execute i e).2.machine.readRegister r).Coherent := by
  obtain ⟨ρ', -, helsewhere, hordinary⟩ :=
    execute_elsewhere hsolver hdef hkeep h htrig hfresh hc
  have hout := execute_executed hdef hfresh h
  have hready := hout.settled.ready
  refine ⟨hout.settled.triggered (hout.phase.trans htrig), fun r hr => ?_⟩
  have hdesc : ((execute i e).2.machine.readRegister r).Describes ρ'
      ((execute i e).2.registerNumber r) := by
    by_cases heip : r = .eip
    · exact (hordinary (hr heip)).registers r
    · exact helsewhere.registers r heip
  exact hdesc.coherent (hready.registers r).le
    (Value.only_eq_some.2 ⟨hready.concrete, hready.registerNumber r⟩)

/-- **Registers are coherent.** An idle engine runs instructions, is triggered and runs more of
them, some like traps. If its ranges are near zero, then every bound fits that the run computes.
Where they fit, let the allowed domains agree at the trigger on every register but the address of
the next instruction, and let traps leave the numbers of the other registers and the bus. Then
after each instruction every register is coherent as the active domains show it: the address of
the next instruction, too, unless the last instruction is like a trap. -/
theorem executeAll_coherent (hsolver : Solver.RightOver σ V) (h : e.Settled V)
    (hidle : e.governor.isTriggered = false) (hcells : e.log.cells = [])
    (hfresh : V.Fresh e.machine.symbolic.nextVariable) {before : List Instruction}
    (hbefore : ∀ i ∈ before, i.Defined)
    (hρ : ∀ r, r ≠ .eip →
      (((e.executeAll before).machine.registers.get r).restrict
        (e.executeAll before).governor.allowed).Describes ρ ((e.executeAll before).registerNumber r))
    (target : Nat) (is : List Instruction) (i : Instruction)
    (hdef : ∀ j ∈ is ++ [i], j.Defined)
    (hkeep : Throughout KeepsAtTraps (trigger target (e.executeAll before)).2 (is ++ [i])) :
    let e₀ := (trigger target (e.executeAll before)).2
    let e' := e₀.executeAll (is ++ [i])
    (e.Near → Throughout Fits e before ∧ Throughout Fits e₀ (is ++ [i])) ∧
      (Throughout Fits e before → Throughout Fits e₀ (is ++ [i]) →
        e'.machine.active = e'.governor.allowed ∧
          ∀ r, (r = .eip → i.kind = .other) → (e'.machine.readRegister r).Coherent) := by
  intro e₀ e'
  refine ⟨fun hnear => ⟨throughout_fits hnear before, throughout_fits ?_ _⟩, fun _ _ => ?_⟩
  · exact (stays_trigger target _ (near_executeAll hnear before)).1
  obtain ⟨hsettled, hphase₁, hfresh₁⟩ := executeAll_settled hbefore h hfresh
  have hidle₁ := hphase₁.trans hidle
  have hbeside := executeAll_idle_beside hbefore h hidle hfresh
  have hcells₁ : (e.executeAll before).log.cells = [] := by
    rw [hbeside.log]
    exact hcells
  obtain ⟨e₂, hact, hsettled₂, htrig₂, hnext, hc⟩ :=
    trigger_consistent hsettled hidle₁ hcells₁ target hρ
  have he₂ : (trigger target (e.executeAll before)).2 = e₂ := congrArg Prod.snd hact
  rw [he₂] at hkeep
  obtain ⟨hkeep₁, hkeep₂, -⟩ := (throughout_append is [i]).1 hkeep
  have hdefs := List.forall_mem_append.1 hdef
  have hfresh₂ : V.Fresh e₂.machine.symbolic.nextVariable := hnext ▸ hfresh₁
  obtain ⟨hsettled₃, hphase₃, hfresh₃⟩ := executeAll_settled hdefs.1 hsettled₂ hfresh₂
  obtain ⟨ρ₃, -, hc₃⟩ :=
    executeAll_elsewhere hsolver hdefs.1 hkeep₁ hsettled₂ htrig₂ hfresh₂ hc.elsewhere
  have he' : e' = (execute i (e₂.executeAll is)).2 := by
    show (trigger target (e.executeAll before)).2.executeAll (is ++ [i]) = _
    rw [he₂, executeAll_append]
    rfl
  rw [he']
  exact execute_coherent hsolver (hdefs.2 i List.mem_cons_self) hkeep₂ hsettled₃
    (hphase₃.trans htrig₂) hfresh₃ hc₃

/-! ### Fresh engines -/

omit [Solver σ] in
/-- A register of a fresh engine is a variable of its own in any range. -/
theorem get_start (bus : Bus) (config : Config) (solver : Option σ) (r : Register) :
    (Engine.start bus config solver).machine.registers.get r =
      .seeded 0 (.var r.bits r.index.val) := by
  have hget : (RegisterFile.ofVariables 0).get r = .seeded 0 (.var r.bits (0 + r.index.val)) :=
    RegisterFile.get_ofFn _ r
  rw [Nat.zero_add] at hget
  exact hget

omit [Solver σ] in
/-- The registers of a fresh engine are in any range, and its log is empty. -/
theorem near_start (bus : Bus) (config : Config) (solver : Option σ) :
    (Engine.start bus config solver).Near := by
  refine ⟨fun r => ?_, nofun⟩
  rw [get_start]
  refine ⟨r.bits_bounds.2, ?_⟩
  rintro i ⟨⟩
  exact Interval.near_top r.bits_bounds.2

omit [Solver σ] in
theorem fresh_settled (bus : Bus) (config : Config) (solver : Option σ) :
    (Engine.start bus config solver).Settled Register.widths := by
  have hseeded : (RegisterFile.ofVariables 0).Seeded
      (Register.widths.below Register.all.length) :=
    RegisterFile.seeded_ofVariables fun r => ⟨by
      rw [Nat.zero_add]
      exact r.widths_index, by
      rw [Nat.zero_add]
      exact r.index.isLt⟩
  exact start_settled bus config solver {} hseeded

/-- **On a fresh engine** the domains agree on whatever numbers an idle run leaves: each register
is still a variable of its own in any range. -/
theorem start_describes (bus : Bus) (config : Config) (solver : Option σ)
    {before : List Instruction} (hbefore : ∀ i ∈ before, i.Defined) :
    ∃ ρ, ∀ r, (((Engine.start bus config solver).executeAll before).machine.registers.get
      r).Describes ρ (((Engine.start bus config solver).executeAll before).registerNumber r) := by
  have hstart := fresh_settled bus config solver
  have hsettled := (executeAll_settled hbefore hstart Register.fresh_widths).1
  have hbeside := executeAll_idle_beside hbefore hstart rfl Register.fresh_widths
  generalize (Engine.start bus config solver).executeAll before = e at hsettled hbeside ⊢
  refine ⟨fun id => if h : id < 22 then e.registerNumber (.ofIndex ⟨id, h⟩) else 0, fun r => ?_⟩
  have hlt := hsettled.ready.registerNumber_lt r
  have hbits := hsettled.ready.bits r
  obtain ⟨hinterval, hsymbolic⟩ := hbeside.registers r
  rw [get_start] at hinterval hsymbolic
  refine ⟨hbits ▸ hlt, fun m hm => ?_, fun i hi => ?_, fun t ht => ?_⟩
  · exact Option.some.inj (hm.symm.trans (hsettled.ready.registerNumber r))
  · obtain rfl := Option.some.inj (hinterval.symm.trans hi)
    rw [hbits]
    exact Interval.mem_top r.bits_bounds.2 hlt
  · obtain rfl := Option.some.inj (hsymbolic.symm.trans ht)
    rw [Term.eval, dif_pos r.index.isLt, Register.ofIndex_index]
    exact Word.truncate_of_lt hlt

/-- An idle engine sets a register; after the trigger comes a trap, and then an instruction that
copies the register. -/
theorem executeAll_coherent_copy :
    let e : Engine Backend := Engine.start .empty {} (some (builtIn {}))
    let before : List Instruction := [⟨0, 2, .other, "", [.setRegister "eax" (.const 7 32)]⟩]
    let trap : Instruction := ⟨2, 2, .int, "", [.trap 128]⟩
    let copy : Instruction := ⟨4, 1, .other, "", [.setRegister "ebx" (.register "eax")]⟩
    let e' := (trigger 2 (e.executeAll before)).2.executeAll [trap, copy]
    e'.registerNumber .ebx = 7 ∧ ∀ r, (e'.machine.readRegister r).Coherent := by
  intro e before trap copy e'
  have hbefore : ∀ i ∈ before, i.Defined := by
    simp [before, Instruction.Defined, Statement.Defined, Expr.Defined]
  have hdef : ∀ i ∈ [trap] ++ [copy], i.Defined := by
    simp [trap, copy, Instruction.Defined, Statement.Defined, Expr.Defined]
  have hstart : e.Settled Register.widths := fresh_settled .empty {} _
  obtain ⟨ρ, hρ⟩ := start_describes .empty {} (some (builtIn {})) hbefore
  have hallowed := fun r (_ : r ≠ .eip) =>
    Value.describes_restrict (hρ r) (e.executeAll before).governor.allowed
  obtain ⟨hsettled, hidle, -⟩ := executeAll_settled hbefore hstart Register.fresh_widths
  have hbeside := executeAll_idle_beside hbefore hstart rfl Register.fresh_widths
  obtain ⟨e₂, hact, hsettled₂, htrig₂, -, -⟩ :=
    trigger_consistent hsettled hidle (congrArg MemoryLog.cells hbeside.log) 2 hallowed
  have hkeep : Throughout KeepsAtTraps (trigger 2 (e.executeAll before)).2 ([trap] ++ [copy]) := by
    have hcopy : ¬ copy.kind.isTrap = true := by decide
    rw [hact]
    refine ⟨keepsAtTraps_of_traps hsettled₂ htrig₂ ?_, fun h => absurd h hcopy, trivial⟩
    exact List.forall_mem_singleton.2 ⟨128, rfl⟩
  obtain ⟨hfits, hrun⟩ := executeAll_coherent
    (Backend.rightOver Register.functional_widths) hstart rfl rfl Register.fresh_widths hbefore
    hallowed 2 [trap] copy hdef hkeep
  obtain ⟨hfitsBefore, hfitsAfter⟩ := hfits (near_start .empty {} (some (builtIn {})))
  obtain ⟨-, hcoherent⟩ := hrun hfitsBefore hfitsAfter
  exact ⟨by decide +kernel, fun r => hcoherent r fun _ => rfl⟩

/-- Registers that are not coherent: one that an idle engine sets against a narrow range and a
constant term, the address behind a trap, and a register that a trap sets. -/
theorem executeAll_incoherent :
    let fresh : Engine Backend := Engine.start .empty {} (some (builtIn {}))
    let five : Value := ⟨32, some 5, some ⟨5, 5⟩, some (.const 32 5)⟩
    let e := fresh.withRegisters (fresh.machine.registers.set .eax five)
    let seven (kind : InstructionKind) : Instruction :=
      ⟨0, 2, kind, "", [.setRegister "eax" (.const 7 32)]⟩
    let next : Instruction := ⟨2, 1, .other, "", []⟩
    (∀ r, (e.machine.registers.get r).Coherent) ∧
      (¬ (((trigger 2 (e.executeAll [seven .other])).2.executeAll [next]).machine.readRegister
        .eax).Coherent) ∧
      (¬ (((trigger 0 e).2.executeAll [⟨0, 2, .int, "", []⟩]).machine.readRegister
        .eip).Coherent) ∧
      ¬ (((trigger 0 e).2.executeAll [seven .int, next]).machine.readRegister .eax).Coherent := by
  intro fresh five e seven next
  refine ⟨fun r => ?_, ?_, ?_, ?_⟩
  · have hget : e.machine.registers.get r =
        if r = .eax then five else fresh.machine.registers.get r := RegisterFile.get_set _ _ _ _
    rw [hget]
    by_cases hr : r = .eax
    · rw [if_pos hr]
      refine ⟨5, rfl, ?_, ?_⟩
      · rintro i ⟨⟩
        decide
      · rintro (_ | _ | _) m hm <;> exact (Option.some.inj hm).symm
    · rw [if_neg hr]
      have hready := (fresh_settled .empty {} (some (builtIn {}))).ready
      have hzero := RegisterFile.describes_ofVariables 0 r
      have hn := hready.registerNumber r
      rw [hzero.concrete _ hn] at hn
      exact hzero.coherent (hready.registers r).le hn
  · exact Value.not_coherent (n := 7) (m := 5) (d := .interval) (by decide +kernel)
      (by decide +kernel) (by decide)
  · exact Value.not_coherent (n := 2) (m := 0) (d := .symbolic) (by decide +kernel)
      (by decide +kernel) (by decide)
  · exact Value.not_coherent (n := 7) (m := 5) (d := .symbolic) (by decide +kernel)
      (by decide +kernel) (by decide)

end Engine
end Lockstep
