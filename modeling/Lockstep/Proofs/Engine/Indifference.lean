/-
# What inactive domains do to a step

Nothing. Two engines that agree on what belongs to the active domains make the
same step: they give the same result or the same fault, and they agree again.
What a register knows in an inactive domain, and the log and the bus when
theirs is not active, may be anything, for no operation asks for them.

Key definitions: `Symbolic.SameSearch`, `Engine.AgreeOn`, `Engine.InStep`.
Key theorems: `respects_readByte`, `Engine.respects_readMemory`, `Engine.respects_evaluate`,
`Engine.respects_writeMemory`, `Engine.respects_perform`, `Engine.respects_run`,
`Engine.step_indifferent`.
-/
import Lockstep.Proofs.Engine.Beside

namespace Lockstep

/-! ### The symbolic state -/

variable {σ α : Type}

/-- Do two symbolic states agree but for their journals? -/
structure Symbolic.SameSearch (s t : Symbolic σ) : Prop where
  nextVariable : t.nextVariable = s.nextVariable
  solver : t.solver = s.solver

section Symbolic

open Symbolic (SameSearch)

theorem respects_journal (level : Level) (message : Unit → String) :
    Respects SameSearch (Symbolic.note level message : SymbolicM σ PUnit) :=
  respects_modify fun _ _ h => ⟨h.nextVariable, h.solver⟩

theorem respects_fresh (bits : Nat) :
    Respects SameSearch (Symbolic.fresh bits : SymbolicM σ Term) :=
  fun _ _ h => ⟨congrArg (Term.var bits) h.nextVariable,
    ⟨congrArg (· + 1) h.nextVariable, h.solver⟩⟩

/-- Without the symbolic domain a value of which nothing is known is the same in any state, and
with it it takes the next variable. -/
theorem respects_undefined (active : DomainSet) (bits : Nat) :
    Respects SameSearch
      (Value.undefined active bits : ExceptT Fault (SymbolicM σ) Value) := by
  refine respects_check fun _ _ => ?_
  by_cases hs : active.contains .symbolic = true
  · rw [if_pos hs]
    exact Respects.bindExcept (respects_fresh bits).lift fun t => respects_liftExcept _
  · rw [if_neg hs]
    exact respects_pure _

variable [Solver σ]

theorem respects_queryZero (t : Term) :
    Respects SameSearch (Symbolic.queryZero t : ExceptT Fault (SymbolicM σ) Verdict) := by
  refine respects_getExcept fun s s' h => ⟨by rw [h.solver], ?_⟩
  cases s.solver with
  | none => exact respects_liftExcept (.error Fault.noSolver)
  | some state =>
    have hmodify : Respects SameSearch (modify fun s => { s with
        solver := some (Solver.askZero state t).2,
        journal := Symbolic.noteReply (Solver.askZero state t).1 s.journal } :
          SymbolicM σ PUnit) := respects_modify fun _ _ h => ⟨h.nextVariable, rfl⟩
    refine Respects.bindExcept hmodify.lift fun _ => ?_
    split
    · exact respects_pure _
    · exact respects_liftExcept (.error (Fault.solver _))

theorem respects_proveZero (t : Term) :
    Respects SameSearch (Symbolic.proveZero t : SymbolicM σ Verdict) := by
  unfold Symbolic.proveZero
  cases t.const? with
  | some n => exact respects_pure _
  | none =>
    refine respects_get fun s s' h => ⟨by rw [h.solver], ?_⟩
    cases s.solver.isNone with
    | true => exact respects_pure _
    | false =>
      refine Respects.bind (respects_queryZero t) fun r => ?_
      cases r with
      | ok verdict => exact respects_pure _
      | error fault => exact (respects_journal _ _).bind fun _ => respects_pure _

theorem respects_refineZero (v : Value) (active : DomainSet) :
    Respects SameSearch (v.refineZero active : SymbolicM σ Value) := by
  unfold Value.refineZero
  cases active.contains .symbolic && active.contains .interval with
  | false => exact respects_pure v
  | true =>
    cases v.symbolic with
    | none => exact respects_pure v
    | some t =>
      refine (respects_proveZero t).bind fun verdict => ?_
      by_cases hzero : verdict = .zero
      · rw [if_pos hzero]
        exact (respects_journal _ _).bind fun _ => respects_pure _
      · rw [if_neg hzero]
        exact respects_pure v

theorem respects_classify (address : Term) (prune : Bool) (c : Cell) :
    Respects SameSearch (c.classify address prune : SymbolicM σ Alias) := by
  unfold Cell.classify
  cases (Term.mkEqual address c.address).const? with
  | some n => exact respects_pure _
  | none =>
    cases prune with
    | false => exact respects_pure _
    | true => exact (respects_proveZero _).bind fun _ => respects_pure _

theorem respects_scan (address : Term) (prune : Bool) (cells : List Cell) :
    Respects SameSearch
      (MemoryLog.scan address prune cells : SymbolicM σ (List Cell × Option Cell)) := by
  induction cells with
  | nil => exact respects_pure _
  | cons c cells ih =>
    refine (respects_classify address prune c).bind fun r => ?_
    cases r with
    | must => exact respects_pure _
    | may => exact ih.bind fun _ => respects_pure _
    | never => exact ih

omit [Solver σ] in
theorem respects_term (c : Cell) : Respects SameSearch (c.term : SymbolicM σ Term) := by
  unfold Cell.term
  cases c.value.symbolic? with
  | some t => exact respects_pure t
  | none => exact respects_fresh 8

omit [Solver σ] in
theorem respects_selectAll (address : Term) (candidates : List Cell) (otherwise : Term) :
    Respects SameSearch
      (MemoryLog.selectAll address candidates otherwise : SymbolicM σ Term) := by
  induction candidates with
  | nil => exact respects_pure otherwise
  | cons c candidates ih =>
    unfold MemoryLog.selectAll
    rw [List.foldrM_cons]
    exact Respects.bind ih fun t => (respects_term c).bind fun _ => respects_pure _

/-- **A byte out of the log** does not depend on the journal. -/
theorem respects_readByte (log : MemoryLog) (address : Term) (prune : Bool) :
    Respects SameSearch
      (log.readByte address prune : ExceptT Fault (SymbolicM σ) Value) := by
  unfold MemoryLog.readByte
  by_cases hw : address.width ≠ addressBits
  · rw [if_pos hw]
    exact respects_liftExcept (.error (Fault.readAddressWidth address.width))
  rw [if_neg hw]
  refine Respects.bindExcept (respects_scan address prune log.cells).lift fun (candidates, base) =>
    Respects.bindExcept (respects_journal _ _).lift fun _ => ?_
  have hselect (t : Term) := (respects_selectAll (σ := σ) address candidates t).lift (ε := Fault)
  cases base with
  | none =>
    exact Respects.bindExcept (respects_fresh 8).lift fun any =>
      Respects.bindExcept (hselect any) fun t => respects_liftExcept _
  | some base =>
    exact Respects.bindExcept (respects_term base).lift fun under =>
      Respects.bindExcept (hselect under) fun t => respects_liftExcept _

end Symbolic

/-! ### Engines that agree -/

namespace Engine

/-- Do two engines, both with the given domains active, agree on what belongs to these, and on
the configuration, the phase and the solver? -/
structure AgreeOn (m : DomainSet) (e e' : Engine σ) : Prop where
  active : e.machine.active = m
  active' : e'.machine.active = m
  config : e'.config = e.config
  phase : e'.governor.phase = e.governor.phase
  solver : e'.machine.symbolic.solver = e.machine.symbolic.solver
  registers : ∀ r,
    (e'.machine.registers.get r).restrict m = (e.machine.registers.get r).restrict m
  bus : m.contains .concrete = true → e'.machine.bus = e.machine.bus
  log : m.contains .symbolic = true → e'.log = e.log
  nextVariable : m.contains .symbolic = true →
    e'.machine.symbolic.nextVariable = e.machine.symbolic.nextVariable

/-- Do two engines agree in the middle of a step, where stores are staged? Their last traps are
equal where they were at the start. -/
structure InStep (m : DomainSet) (trapped : Prop) (e e' : Engine σ) : Prop extends
    AgreeOn m e e' where
  staged : m.contains .concrete = true → e'.machine.staged = e.machine.staged
  lastTrap : trapped → e'.lastTrap = e.lastTrap

variable {m : DomainSet} {trapped : Prop} {e e' : Engine σ}

theorem AgreeOn.isTriggered (h : AgreeOn m e e') :
    e'.governor.isTriggered = e.governor.isTriggered := by
  unfold Governor.isTriggered
  rw [h.phase]

theorem AgreeOn.readRegister (h : AgreeOn m e e') (r : Register) :
    e'.machine.readRegister r = e.machine.readRegister r := by
  unfold Machine.readRegister
  rw [h.active, h.active']
  exact h.registers r

theorem AgreeOn.readNamed (h : AgreeOn m e e') (name : String) :
    e'.machine.readNamed name = e.machine.readNamed name := by
  unfold Machine.readNamed
  rw [funext h.readRegister]

/-- Where the concrete domain is active, loads give the same words. -/
theorem InStep.load (h : InStep m trapped e e') (hc : m.contains .concrete = true)
    (address bits : Nat) : e'.machine.load address bits = e.machine.load address bits := by
  unfold Machine.load Machine.getByte
  rw [h.bus hc, h.staged hc]

theorem InStep.symbolic (h : InStep m trapped e e') (hs : m.contains .symbolic = true) :
    Symbolic.SameSearch e.machine.symbolic e'.machine.symbolic :=
  ⟨h.nextVariable hs, h.solver⟩

/-! ### Computations that respect agreement -/

/-- Engines that get symbolic states with the same solver, and with the symbolic domain the same
next variable, agree as before. -/
theorem InStep.withSymbolic (h : InStep m trapped e e') {s s' : Symbolic σ}
    (hsolver : s'.solver = s.solver)
    (hnext : m.contains .symbolic = true → s'.nextVariable = s.nextVariable) :
    InStep m trapped (e.withSymbolic s) (e'.withSymbolic s') where
  active := h.active
  active' := h.active'
  config := h.config
  phase := h.phase
  solver := hsolver
  registers := h.registers
  bus := h.bus
  log := h.log
  nextVariable := hnext
  staged := h.staged
  lastTrap := h.lastTrap

theorem respects_note (level : Level) (message : Unit → String) :
    Respects (InStep m trapped) (note level message : EngineM σ Unit) :=
  fun _ _ h => ⟨rfl, h.withSymbolic h.solver h.nextVariable⟩

theorem respects_onMachine_note (level : Level) (message : Unit → String) :
    Respects (InStep m trapped) (onMachine (Machine.note level message) : EngineM σ Unit) :=
  fun _ _ h => ⟨rfl, h.withSymbolic h.solver h.nextVariable⟩

/-- With the symbolic domain a computation may depend on the next variable and the solver. -/
theorem respects_symbolically {act : ExceptT Fault (SymbolicM σ) α}
    (hs : m.contains .symbolic = true) (hact : Respects Symbolic.SameSearch act) :
    Respects (InStep m trapped) (symbolically act) := by
  intro e e' h
  obtain ⟨hresult, hnext, hsolver⟩ := hact _ _ (h.symbolic hs)
  exact ⟨hresult, h.withSymbolic hsolver fun _ => hnext⟩

theorem respects_symbolically_of_eq {act : ExceptT Fault (SymbolicM σ) α} {x : Except Fault α}
    (hact : ∀ s, act s = (x, s)) : Respects (InStep m trapped) (symbolically act) := by
  intro e e' h
  unfold symbolically onMachine Machine.symbolically
  rw [hact, hact]
  exact ⟨rfl, h⟩

/-- What looks at the active domains and registers only may go on with what it finds. -/
theorem respects_look {f : Engine σ → Except Fault α}
    (hf : ∀ e e', InStep m trapped e e' → f e' = f e) :
    Respects (InStep m trapped) (get >>= fun e => liftM (f e) : EngineM σ α) :=
  respects_getExcept fun e e' h => ⟨by rw [hf e e' h], respects_liftExcept _⟩

theorem respects_undefinedValue (bits : Nat) :
    Respects (InStep m trapped)
      (symbolically (Value.undefined m bits) : EngineM σ Value) := by
  by_cases hs : m.contains .symbolic = true
  · exact respects_symbolically hs (respects_undefined m bits)
  · refine respects_symbolically_of_eq (x := do
      checkWidth bits
      pure { bits, interval := m.only .interval (some (.top bits)) }) fun s => ?_
    unfold Value.undefined
    rw [if_neg hs]
    cases checkWidth bits with
    | error fault => rfl
    | ok _ => rfl

/-! ### Expressions -/

theorem respects_machineReadMemory (address : Value) (bits : Nat) :
    Respects (InStep m trapped)
      (onMachine (Machine.readMemory address bits) : EngineM σ Value) := by
  rw [onMachine_readMemory]
  refine respects_check fun _ _ => respects_check fun _ _ =>
    respects_getExcept fun e e' h => ⟨?_, ?_⟩
  · have hword : m.only .concrete (address.known?.map (e'.machine.load · bits)) =
        m.only .concrete (address.known?.map (e.machine.load · bits)) := by
      by_cases hc : m.contains .concrete = true
      · rw [funext fun a => h.load hc a bits]
      · unfold DomainSet.only
        rw [if_neg hc, if_neg hc]
    rw [h.active, h.active']
    simp only [numberedWord, hword]
  · rw [h.active]
    refine Respects.bindExcept ?_ fun _ =>
      Respects.bindExcept (respects_undefinedValue bits) fun v => respects_pure _
    split
    · exact respects_onMachine_note _ _
    · exact respects_pure _

variable [Solver σ]

theorem respects_readLogBytes (hs : m.contains .symbolic = true) (base : Term) (count : Nat) :
    Respects (InStep m trapped) (readLogBytes base count : EngineM σ Value) := by
  have hbyte (i : Nat) : Respects (InStep m trapped) (readLogByte base i : EngineM σ Value) := by
    refine respects_getExcept fun e e' h => ⟨by rw [h.log hs, h.config], ?_⟩
    exact respects_symbolically hs (respects_readByte _ _ _)
  refine Respects.bindExcept (hbyte 0) fun first => respects_foldlM (fun lo i => ?_) _ first
  refine Respects.bindExcept (hbyte (i + 1)) fun byte => ?_
  exact respects_look fun e e' h => by rw [h.active, h.active']

/-- **A load** respects agreement. With the symbolic domain the logs are the same, and the bus
is asked with the concrete domain only. -/
theorem respects_readMemory (address : Value) (bits : Nat) :
    Respects (InStep m trapped) (readMemory address bits : EngineM σ Value) := by
  refine respects_getExcept fun e e' h =>
    ⟨by simp only [h.isTriggered, h.active, h.active'], ?_⟩
  have hmachine : Respects (InStep m trapped)
      (onMachine (Machine.readMemory address bits) : EngineM σ Value) :=
    respects_machineReadMemory address bits
  by_cases htrig : (!e.governor.isTriggered) = true
  · rw [if_pos htrig]
    exact hmachine
  rw [if_neg htrig]
  refine respects_check fun _ _ => respects_check fun _ _ => ?_
  rw [h.active]
  by_cases hs : m.contains .symbolic = true
  · rw [hs, Bool.not_true, if_neg Bool.false_ne_true]
    cases address.ensureTerm m with
    | error fault => exact Respects.bindExcept (respects_note _ _) fun _ => hmachine
    | ok base =>
      refine Respects.bindExcept (respects_readLogBytes hs base _) fun v => ?_
      refine respects_getExcept fun e e' h => ⟨?_, respects_pure _⟩
      dsimp only
      rw [h.active, h.active']
      by_cases hc : m.contains .concrete = true
      · rw [if_pos hc, if_pos hc]
        cases address.known? with
        | none => rfl
        | some a =>
          dsimp only
          rw [h.load hc]
      · rw [if_neg hc, if_neg hc]
  · rw [Bool.not_eq_true] at hs
    rw [hs, Bool.not_false, if_pos rfl]
    exact hmachine

/-- An exclusive or asks the solver with the symbolic domain only. -/
theorem respects_xor (a b : Value) :
    Respects (InStep m trapped) (xor a b : EngineM σ Value) := by
  refine respects_getExcept fun e e' h => ⟨by rw [h.active, h.active'], ?_⟩
  rw [h.active]
  refine respects_check fun v _ => ?_
  by_cases hs : m.contains .symbolic = true
  · exact respects_symbolically hs (respects_refineZero v m).lift
  · refine respects_symbolically_of_eq (x := .ok v) fun s => ?_
    rw [Bool.not_eq_true] at hs
    unfold Value.refineZero
    rw [hs]
    rfl

/-- **An evaluation** respects agreement. By induction on the expression. -/
theorem respects_evaluate (x : Expr) :
    Respects (InStep m trapped) (evaluate x : EngineM σ Value) := by
  -- most forms end with an operation on values in the active domains
  have hlast (f : DomainSet → Except Fault Value) : Respects (InStep m trapped)
      (get >>= fun e => liftM (f e.machine.active) : EngineM σ Value) :=
    respects_look fun e e' h => by rw [h.active, h.active']
  induction x with
  | const value size => exact hlast (Value.number · size value)
  | register name => exact respects_look fun e e' h => h.readNamed name
  | memory size a ih => exact Respects.bindExcept ih fun u => respects_readMemory u size
  | binary op a b iha ihb =>
    refine Respects.bindExcept iha fun u => Respects.bindExcept ihb fun v => ?_
    cases op with
    | xor => exact respects_xor u v
    | _ => exact hlast (Value.binary · _ u v)
  | invert a ih => exact Respects.bindExcept ih fun u => hlast (Value.invert · u)
  | slice a lo hi ih => exact Respects.bindExcept ih fun u => hlast (u.slice · lo hi)
  | concat lo hi ihl ihh =>
    exact Respects.bindExcept ihl fun u => Respects.bindExcept ihh fun v =>
      hlast (Value.concat · u v)
  | isZero a ih => exact Respects.bindExcept ih fun u => hlast (Value.isZero · u)
  | ite c t f ihc iht ihf =>
    exact Respects.bindExcept ihc fun w => Respects.bindExcept iht fun u =>
      Respects.bindExcept ihf fun v => hlast (Value.ite · w u v)
  | undefined size =>
    refine respects_getExcept fun e e' h => ⟨by rw [h.active, h.active'], ?_⟩
    rw [h.active]
    exact respects_undefinedValue size

/-! ### Stores and registers -/

omit [Solver σ] in
/-- Engines that put the same bytes in memory agree, where without the concrete domain there
are none. -/
theorem InStep.putBytes (h : InStep m trapped e e') {writes : List (Nat × UInt8)} :
    InStep m trapped { e with machine := e.machine.putBytes writes }
      { e' with machine := e'.machine.putBytes writes } := by
  have hput (machine : Machine σ) : machine.putBytes writes =
      { machine with
        bus := (machine.putBytes writes).bus, staged := (machine.putBytes writes).staged } := by
    unfold Machine.putBytes
    cases machine.staged <;> rfl
  have hmemory (hc : m.contains .concrete = true) :
      (e'.machine.putBytes writes).bus = (e.machine.putBytes writes).bus ∧
        (e'.machine.putBytes writes).staged = (e.machine.putBytes writes).staged := by
    unfold Machine.putBytes
    rw [h.staged hc]
    cases hstaged : e.machine.staged with
    | none => exact ⟨congrArg (Bus.setBytes · writes) (h.bus hc), rfl⟩
    | some staged => exact ⟨h.bus hc, rfl⟩
  rw [hput e.machine, hput e'.machine]
  exact
    { active := h.active, active' := h.active', config := h.config, phase := h.phase,
      solver := h.solver, registers := h.registers, bus := fun hc => (hmemory hc).1,
      log := h.log, nextVariable := h.nextVariable, staged := fun hc => (hmemory hc).2,
      lastTrap := h.lastTrap }

omit [Solver σ] in
theorem respects_machineWriteMemory (address data : Value) :
    Respects (InStep m trapped)
      (onMachine (Machine.writeMemory address data) : EngineM σ Unit) := by
  intro e e' h
  obtain ⟨_, writes, -, hwrite⟩ := Machine.writeMemory_putBytes (σ := σ) address data m
  unfold onMachine
  rw [hwrite e.machine h.active, hwrite e'.machine h.active']
  exact ⟨rfl, h.putBytes⟩

omit [Solver σ] in
/-- The store of the concrete domain, if this is active, in front of what respects agreement. -/
theorem respects_storeConcrete {address data : Value} {f : Except Fault Unit → EngineM σ Unit}
    {log : EngineM σ Unit} (hw : checkAccessWidth data.bits = .ok ())
    (ha : address.checkOperand "address" = .ok ()) (hd : data.checkOperand "data" = .ok ())
    (hlog : Respects (InStep m trapped) log)
    (hf : Respects (InStep m trapped) log → ∀ r, Respects (InStep m trapped) (f r)) :
    Respects (InStep m trapped) (if m.contains .concrete then
        onMachine (ExceptT.lift
          (withActive .concreteOnly (Machine.writeMemory address data)).run) >>= f
      else log : EngineM σ Unit) := by
  by_cases hc : m.contains .concrete = true
  · rw [if_pos hc]
    refine Respects.bindExcept (fun e e' h => ?_) (hf hlog)
    obtain ⟨r, hr⟩ := storeConcrete_eq_putBytes (σ := σ) hw ha hd
    rw [hr, hr]
    exact ⟨rfl, h.putBytes⟩
  · rw [if_neg hc]
    exact hlog

omit [Solver σ] in
/-- **A store** respects agreement. -/
theorem respects_writeMemory (address data : Value) :
    Respects (InStep m trapped) (writeMemory address data : EngineM σ Unit) := by
  refine respects_getExcept fun e e' h =>
    ⟨by simp only [h.isTriggered, h.active, h.active'], ?_⟩
  by_cases htrig : (!e.governor.isTriggered) = true
  · rw [if_pos htrig]
    exact respects_machineWriteMemory address data
  rw [if_neg htrig]
  refine respects_check fun _ hw => respects_check fun _ ha => respects_check fun _ hd => ?_
  rw [h.active]
  refine respects_storeConcrete hw ha hd ?_ fun hlog r => ?_
  · by_cases hs : m.contains .symbolic = true
    · rw [if_pos hs]
      cases address.ensureTerm m with
      | error fault => exact respects_note _ _
      | ok base =>
        refine respects_check fun cells _ => Respects.lift (respects_modify fun e e' h => ?_)
        exact { h with
          log := fun hs => congrArg (fun log => cells.foldl MemoryLog.write log) (h.log hs) }
    · rw [if_neg hs]
      exact respects_pure _
  · cases r with
    | error fault => exact Respects.bindExcept (respects_note _ _) fun _ => hlog
    | ok _ => exact hlog

omit [Solver σ] in
/-- A write to a register is refused in both engines or replaces what the active domains know
of it. -/
theorem InStep.writeRegister (h : InStep m trapped e e') (r : Register) (v : Value) :
    (∃ fault, e.machine.writeRegister r v = .error fault ∧
      e'.machine.writeRegister r v = .error fault) ∨
    ∃ machine machine', e.machine.writeRegister r v = .ok machine ∧
      e'.machine.writeRegister r v = .ok machine' ∧
      InStep m trapped { e with machine } { e' with machine := machine' } := by
  have hbits : (e'.machine.registers.get r).bits = (e.machine.registers.get r).bits := by
    simpa using congrArg Value.bits (h.registers r)
  unfold Machine.writeRegister Value.overlay
  by_cases hr : v.bits = r.bits
  · by_cases hslot : v.bits = (e.machine.registers.get r).bits
    · rw [if_pos hr, if_pos hr, if_pos hslot, if_pos (hslot.trans hbits.symm)]
      refine .inr ⟨_, _, rfl, rfl, { h with registers := fun s => ?_ }⟩
      show Value.restrict ((e'.machine.registers.set r _).get s) m =
        Value.restrict ((e.machine.registers.set r _).get s) m
      rw [RegisterFile.get_set, RegisterFile.get_set, h.active, h.active']
      by_cases hs : s = r
      · rw [if_pos hs, if_pos hs]
        rw [Value.restrict_takeParts (hslot.trans hbits.symm), Value.restrict_takeParts hslot]
      · rw [if_neg hs, if_neg hs]
        exact h.registers s
    · rw [if_pos hr, if_pos hr, if_neg hslot, if_neg (fun hv => hslot (hv.trans hbits)), hbits]
      exact .inl ⟨_, rfl, rfl⟩
  · rw [if_neg hr, if_neg hr]
    exact .inl ⟨_, rfl, rfl⟩

omit [Solver σ] in
/-- **A write to a register** respects agreement, if its value depends on what engines agree
on. -/
theorem respects_write (r : Register) {f : Machine σ → Except Fault Value}
    (hf : ∀ e e', InStep m trapped e e' → f e'.machine = f e.machine) :
    Respects (InStep m trapped)
      (updateMachine fun machine => do machine.writeRegister r (← f machine)) := by
  intro e e' h
  have hrefused {fault : Fault} {e : Engine σ} (hv : f e.machine = .error fault) :
      updateMachine (fun machine => do machine.writeRegister r (← f machine)) e =
        (.error fault, e) := updateMachine_error (by rw [hv]; rfl)
  have hwritten {v : Value} {e : Engine σ} (hv : f e.machine = .ok v) :
      (do e.machine.writeRegister r (← f e.machine)) = e.machine.writeRegister r v := by
    rw [hv]
    rfl
  cases hv : f e.machine with
  | error fault =>
    rw [hrefused hv, hrefused ((hf e e' h).trans hv)]
    exact ⟨rfl, h⟩
  | ok v =>
    have hv' := (hf e e' h).trans hv
    rcases h.writeRegister r v with ⟨fault, hw, hw'⟩ | ⟨machine, machine', hw, hw', hagree⟩
    · rw [updateMachine_error ((hwritten hv').trans hw'),
        updateMachine_error ((hwritten hv).trans hw)]
      exact ⟨rfl, h⟩
    · rw [updateMachine_ok ((hwritten hv').trans hw'), updateMachine_ok ((hwritten hv).trans hw)]
      exact ⟨rfl, hagree⟩

/-! ### Statements and instructions -/

/-- **A statement** respects agreement. -/
theorem respects_perform (s : Statement) :
    Respects (InStep m trapped) (perform s : EngineM σ Unit) := by
  cases s with
  | setRegister name x =>
    refine Respects.bindExcept (respects_evaluate x) fun v => ?_
    cases hr : Register.named name with
    | error fault =>
      intro e e' h
      have hrefused (machine : Machine σ) : machine.writeNamed name v = .error fault := by
        rw [Machine.writeNamed, hr]
        rfl
      rw [updateMachine_error (hrefused _), updateMachine_error (hrefused _)]
      exact ⟨rfl, h⟩
    | ok r =>
      have hwrite : (fun machine : Machine σ => machine.writeNamed name v) =
          fun machine => machine.writeRegister r v := by
        funext machine
        rw [Machine.writeNamed, hr]
        rfl
      rw [hwrite]
      exact respects_write r (f := fun _ => .ok v) fun _ _ _ => rfl
  | store size address x =>
    refine Respects.bindExcept (respects_evaluate address) fun a =>
      Respects.bindExcept (respects_evaluate x) fun v => ?_
    by_cases hsize : v.bits ≠ size
    · rw [if_pos hsize]
      exact respects_check (x := .error (Fault.storeWidth size v.bits)) fun _ h => by cases h
    · rw [if_neg hsize]
      exact respects_writeMemory a v
  | jump target =>
    exact Respects.bindExcept (respects_evaluate target) fun v =>
      respects_write .eip (f := fun _ => .ok v) fun _ _ _ => rfl
  | trap vector =>
    refine Respects.bindExcept (respects_note _ _) fun _ =>
      Respects.lift (respects_modify fun e e' h => ?_)
    exact { h with lastTrap := fun _ => rfl }

omit [Solver σ] in
/-- An engine goes on from the address that its active domains know. -/
theorem respects_advance (length : Nat) :
    Respects (InStep m trapped) (advance length : EngineM σ Unit) := by
  let next (machine : Machine σ) : Except Fault Value := do
    let length ← Value.number machine.active addressBits length
    Value.binary machine.active .add (machine.readRegister .eip) length
  have hnext : Respects (InStep m trapped)
      (updateMachine fun machine : Machine σ => next machine >>= machine.writeRegister .eip) :=
    respects_write .eip fun e e' h => by
      simp only [next, h.active, h.active', h.readRegister]
  simp only [next, bind_assoc] at hnext
  exact hnext

/-- **An instruction** respects agreement. -/
theorem respects_run (i : Instruction) :
    Respects (InStep m trapped) (run i : EngineM σ Unit) := by
  refine respects_getExcept fun e e' h => ⟨?_, ?_⟩
  · have hcheck : checkAddress e'.machine i.address = checkAddress e.machine i.address := by
      unfold checkAddress
      rw [h.active, h.active', h.readRegister]
    rw [hcheck]
  · refine respects_check fun _ _ =>
      Respects.bindExcept (respects_forM respects_perform i.statements) fun _ => ?_
    cases i.jumps with
    | true => exact respects_pure _
    | false => exact respects_advance i.length

omit [Solver σ] in
theorem AgreeOn.beginWrites (h : AgreeOn m e e') :
    InStep m (e'.lastTrap = e.lastTrap) e.beginWrites e'.beginWrites :=
  { h with staged := fun _ => rfl, lastTrap := id }

/-- **What belongs to inactive domains does not show in a step.** Two engines that agree on
the active domains make it with the same result, be it success or a fault, and agree again; and
if their last traps were equal, they are equal again. -/
theorem step_indifferent (h : AgreeOn m e e') (i : Instruction) :
    (step i e').1 = (step i e).1 ∧ AgreeOn m (step i e).2 (step i e').2 ∧
      (e'.lastTrap = e.lastTrap → (step i e').2.lastTrap = (step i e).2.lastTrap) := by
  obtain ⟨hresult, hstates⟩ := respects_run i _ _ h.beginWrites
  unfold step
  rcases hrun : run i e.beginWrites with ⟨fault | _, after⟩ <;>
    rcases hrun' : run i e'.beginWrites with ⟨fault' | _, after'⟩ <;>
      rw [hrun, hrun'] at hresult hstates
  · -- both fail: the stores and the cells of the step are forgotten
    obtain rfl := Except.error.inj hresult
    refine ⟨rfl, { hstates with log := fun hs => ?_ }, hstates.lastTrap⟩
    show after'.log.truncate e'.log.size = after.log.truncate e.log.size
    rw [hstates.log hs, h.log hs]
  · cases hresult
  · cases hresult
  · -- both succeed: the same bytes go to the same bus
    refine ⟨rfl, { hstates with bus := fun hc => ?_ }, hstates.lastTrap⟩
    show after'.machine.bus.setBytes _ = after.machine.bus.setBytes _
    rw [hstates.bus hc, hstates.staged hc]

/-- Without the symbolic domain a store makes the same step where a register still has a term
that was made earlier, and the log a cell. -/
theorem step_indifferent_stale :
    let m : DomainSet := ⟨true, true, false⟩
    let e : Engine Backend := (Engine.start .empty {} none).under m
      { allowed := m, threshold := 0, reportInterval := 0, phase := .triggered }
    let e' : Engine Backend :=
      { e with
        log := ⟨[⟨.var 32 30, { bits := 8, symbolic := some (.var 8 31) }⟩]⟩
        machine := { e.machine with
          symbolic := { e.machine.symbolic with nextVariable := 40 }
          registers := e.machine.registers.set .eax
            { e.machine.registers.get .eax with symbolic := some (.const 32 7) } } }
    let i : Instruction := ⟨0, 2, .other, "", [.store 32 (.register "ebx")
      (.binary .xor (.register "eax") (.memory 32 (.register "ecx")))]⟩
    (step i e').1 = (step i e).1 ∧ AgreeOn m (step i e).2 (step i e').2 ∧
      (step i e').2.lastTrap = (step i e).2.lastTrap := by
  intro m e e' i
  have hregisters (r : Register) : (e'.machine.registers.get r).restrict m =
      (e.machine.registers.get r).restrict m := by
    show ((e.machine.registers.set .eax _).get r).restrict m = _
    rw [RegisterFile.get_set]
    by_cases hr : r = .eax
    · rw [if_pos hr, hr]
      rfl
    · rw [if_neg hr]
  have hagree : AgreeOn m e e' :=
    { active := rfl, active' := rfl, config := rfl, phase := rfl, solver := rfl,
      registers := hregisters, bus := fun _ => rfl, log := nofun, nextVariable := nofun }
  obtain ⟨hresult, hafter, htrap⟩ := step_indifferent hagree i
  exact ⟨hresult, hafter, htrap rfl⟩

end Engine
end Lockstep
