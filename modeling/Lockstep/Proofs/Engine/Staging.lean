/-
# Stores that are deferred

While a step runs its stores are staged, off the bus. Whatever part of a step
runs, it does what it would do on an engine whose bus already has the staged
stores: the same result, and the bytes that it stages are those that it would
put on the bus. In the meantime the bus waits and the log only grows.

Key definitions: `Value.storeWrites`, `Machine.putBytes`, `Engine.Defers`,
`Engine.SetsRegisters`, `Engine.statementWrites`, `Engine.writesOf`.
Key theorems: `Machine.commitStores_putBytes`, `Machine.writeMemory_putBytes`,
`Engine.Defers.bind`, `Engine.writeMemory_defers`, `Engine.writeMemory_eq_putBytes`,
`Engine.perform_defers`, `Engine.run_defers`.
-/
import Lockstep.Proofs.Engine.Frame
import Lockstep.Proofs.Engine.Perform

namespace Lockstep

/-! ### Bytes put in memory -/

/-- The bytes that a store puts in memory, in order: those of the known word at the known
address, if the concrete domain is active. -/
def Value.storeWrites (active : DomainSet) (address data : Value) : List (Nat × UInt8) :=
  if active.contains .concrete then
    match address.known?, data.known? with
    | some a, some n => Bus.writes a (data.bits / 8) n
    | _, _ => []
  else []

theorem Value.storeWrites_of_inactive {active : DomainSet}
    (hc : active.contains .concrete = false) (address data : Value) :
    storeWrites active address data = [] := by
  unfold storeWrites
  rw [hc, if_neg Bool.false_ne_true]

namespace Machine

variable {σ : Type} {m : Machine σ}

/-- The machine with bytes put in memory in order, staged while stores are. -/
def putBytes (m : Machine σ) (writes : List (Nat × UInt8)) : Machine σ :=
  match m.staged with
  | some staged => { m with staged := some (writes.reverse ++ staged) }
  | none => { m with bus := m.bus.setBytes writes }

@[simp] theorem active_putBytes (m : Machine σ) (writes : List (Nat × UInt8)) :
    (m.putBytes writes).active = m.active := by
  unfold putBytes
  cases m.staged <;> rfl

@[simp] theorem registers_putBytes (m : Machine σ) (writes : List (Nat × UInt8)) :
    (m.putBytes writes).registers = m.registers := by
  unfold putBytes
  cases m.staged <;> rfl

@[simp] theorem symbolic_putBytes (m : Machine σ) (writes : List (Nat × UInt8)) :
    (m.putBytes writes).symbolic = m.symbolic := by
  unfold putBytes
  cases m.staged <;> rfl

theorem putBytes_nil (m : Machine σ) : m.putBytes [] = m := by
  obtain ⟨active, symbolic, registers, bus, staged⟩ := m
  cases staged <;> rfl

/-- Which domains are active does not matter where bytes are put. -/
theorem putBytes_setActive (m : Machine σ) (d : DomainSet) (writes : List (Nat × UInt8)) :
    { ({ m with active := d } : Machine σ).putBytes writes with active := m.active } =
      m.putBytes writes := by
  unfold putBytes
  cases m.staged <;> rfl

theorem getByte_putBytes (m : Machine σ) (writes : List (Nat × UInt8)) (a : Nat) :
    (m.putBytes writes).getByte a = newest writes.reverse a (m.getByte a) := by
  obtain ⟨active, symbolic, registers, bus, staged⟩ := m
  cases staged with
  | some staged => exact newest_append writes.reverse staged a _
  | none =>
    show (bus.setBytes writes).getByte a = newest writes.reverse a (bus.getByte a)
    rw [← Bus.getByte_setBytes, List.reverse_reverse]

theorem max_bytes {bits : Nat} (hw : checkAccessWidth bits = .ok ()) :
    max (bits / 8) 1 = bits / 8 := by
  have := Engine.bounds_of_checkAccessWidth hw
  omega

theorem store_eq_putBytes {bits : Nat} (hw : checkAccessWidth bits = .ok ()) (m : Machine σ)
    (address n : Nat) :
    m.store address bits n = m.putBytes (Bus.writes address (bits / 8) n) := by
  obtain ⟨active, symbolic, registers, bus, staged⟩ := m
  cases staged with
  | none => simp only [store, putBytes, Bus.store, max_bytes hw]
  | some staged => rfl

/-- Bytes that are staged go to the bus after the ones before them. -/
theorem commitStores_putBytes (m : Machine σ) (writes : List (Nat × UInt8)) :
    (m.putBytes writes).commitStores = m.commitStores.putBytes writes := by
  obtain ⟨active, symbolic, registers, bus, staged⟩ := m
  cases staged with
  | none => rfl
  | some staged =>
    simp only [putBytes, commitStores, Option.getD_some, List.reverse_append,
      List.reverse_reverse, Bus.setBytes_append]

/-- A store whose checks are passed puts its bytes in memory, or none if it is refused. -/
theorem writeMemory_eq_putBytes {address data : Value} (hw : checkAccessWidth data.bits = .ok ())
    (ha : address.checkOperand "address" = .ok ()) (hd : data.checkOperand "data" = .ok ())
    (active : DomainSet) :
    ∃ r, ∀ m : Machine σ, m.active = active →
      writeMemory address data m = (r, m.putBytes (Value.storeWrites active address data)) := by
  unfold writeMemory Value.storeWrites
  simp only [apply_check_ok hw, apply_check_ok ha, apply_check_ok hd, apply_get_bind]
  by_cases hc : active.contains .concrete = true
  · cases hknown : address.known? with
    | none =>
      refine ⟨.error .unknownStoreAddress, fun m hm => ?_⟩
      rw [hm, if_pos hc, if_pos hc, putBytes_nil]
      rfl
    | some a =>
      cases hdata : data.known? with
      | none =>
        refine ⟨.error .unknownStoreData, fun m hm => ?_⟩
        rw [hm, if_pos hc, if_pos hc, putBytes_nil]
        rfl
      | some n =>
        refine ⟨.ok (), fun m hm => ?_⟩
        rw [hm, if_pos hc, if_pos hc, ← store_eq_putBytes hw]
        rfl
  · refine ⟨.ok (), fun m hm => ?_⟩
    rw [hm, if_neg hc, if_neg hc, putBytes_nil]
    rfl

/-- A store puts bytes in memory, none without the concrete domain, or it is refused and puts
none. Which it is depends on the active domains alone. -/
theorem writeMemory_putBytes (address data : Value) (active : DomainSet) :
    ∃ r writes, (active.contains .concrete = false → writes = []) ∧
      ∀ m : Machine σ, m.active = active →
        writeMemory address data m = (r, m.putBytes writes) := by
  have hrefused (fault : Fault)
      (h : ∀ m : Machine σ, writeMemory address data m = (.error fault, m)) :
      ∃ r writes, (active.contains .concrete = false → writes = []) ∧
        ∀ m : Machine σ, m.active = active →
          writeMemory address data m = (r, m.putBytes writes) :=
    ⟨.error fault, [], fun _ => rfl, fun m _ => by rw [h, putBytes_nil]⟩
  cases hw : checkAccessWidth data.bits with
  | error fault => exact hrefused fault fun m => apply_check_error hw _ m
  | ok _ =>
    cases ha : address.checkOperand "address" with
    | error fault =>
      refine hrefused fault fun m => ?_
      rw [writeMemory, apply_check_ok hw, apply_check_error ha]
    | ok _ =>
      cases hd : data.checkOperand "data" with
      | error fault =>
        refine hrefused fault fun m => ?_
        rw [writeMemory, apply_check_ok hw, apply_check_ok ha, apply_check_error hd]
      | ok _ =>
        obtain ⟨r, hr⟩ := writeMemory_eq_putBytes (σ := σ) hw ha hd active
        exact ⟨r, _, fun hc => Value.storeWrites_of_inactive hc address data, hr⟩

end Machine

namespace Engine

variable {σ α β : Type} {e : Engine σ} {writes writes' : List (Nat × UInt8)}

/-! ### Computations that defer their stores -/

/-- What a computation does while stores are staged: it leaves the bus and the active domains,
the log only grows, and if it succeeds it has staged the given writes. On the engine whose bus
has what was staged it does the same, with its own stores on the bus. -/
structure Defers (act : EngineM σ α) (e : Engine σ) (writes : List (Nat × UInt8)) : Prop where
  bus : (act e).2.machine.bus = e.machine.bus
  active : (act e).2.machine.active = e.machine.active
  cells : ∃ new, (act e).2.log.cells = new ++ e.log.cells
  staged : ∀ a, (act e).1 = .ok a →
    (act e).2.machine.staged = e.machine.staged.map (writes.reverse ++ ·)
  direct : act e.commitWrites = ((act e).1, (act e).2.commitWrites)

theorem Observes.commitWrites {act : EngineM σ α} (h : Observes act) (e : Engine σ) :
    act e.commitWrites = ((act e).1, (act e).2.commitWrites) := by
  obtain ⟨s, hs⟩ := h.frame e
  have hmemory := h.memory e _ none (sameBytes_commitStores e)
  rw [hs] at hmemory ⊢
  exact hmemory

theorem defers_nil {act : EngineM σ α} (hbus : (act e).2.machine.bus = e.machine.bus)
    (hactive : (act e).2.machine.active = e.machine.active)
    (hcells : ∃ new, (act e).2.log.cells = new ++ e.log.cells)
    (hstaged : (act e).2.machine.staged = e.machine.staged)
    (hdirect : act e.commitWrites = ((act e).1, (act e).2.commitWrites)) : Defers act e [] := by
  refine ⟨hbus, hactive, hcells, fun _ _ => ?_, hdirect⟩
  rw [hstaged]
  cases e.machine.staged <;> rfl

theorem Observes.defers {act : EngineM σ α} (h : Observes act) (e : Engine σ) :
    Defers act e [] := by
  obtain ⟨s, hs⟩ := h.frame e
  have hdirect := h.commitWrites e
  apply defers_nil <;> rw [hs] at *
  · rfl
  · rfl
  · exact ⟨[], rfl⟩
  · rfl
  · exact hdirect

theorem Defers.congr {act act' : EngineM σ α} (h : Defers act e writes) (he : act' e = act e)
    (hcommit : act' e.commitWrites = act e.commitWrites) : Defers act' e writes := by
  obtain ⟨hbus, hactive, hcells, hstaged, hdirect⟩ := h
  rw [← he] at hbus hactive hcells hstaged hdirect
  exact ⟨hbus, hactive, hcells, hstaged, hcommit.trans hdirect⟩

theorem Defers.isSome_staged {act : EngineM σ α} {a : α} {e' : Engine σ}
    (h : Defers act e writes) (hact : act e = (.ok a, e'))
    (hs : e.machine.staged.isSome = true) : e'.machine.staged.isSome = true := by
  have hstaged := h.staged a (congrArg Prod.fst hact)
  rw [hact] at hstaged
  rw [hstaged, Option.isSome_map]
  exact hs

/-- **Deferring in sequence.** The later writes come after the earlier ones. -/
theorem Defers.bind {x : EngineM σ α} {f : α → EngineM σ β} (hx : Defers x e writes)
    (hf : ∀ a e', x e = (.ok a, e') → Defers (f a) e' writes') :
    Defers (x >>= f) e (writes ++ writes') := by
  obtain ⟨hbus, hactive, hcells, hstaged, hdirect⟩ := hx
  rcases he : x e with ⟨fault | a, e'⟩
  · rw [he] at hbus hactive hcells hdirect
    have hbind := apply_bind_error he f
    constructor <;> rw [hbind]
    · exact hbus
    · exact hactive
    · exact hcells
    · nofun
    · exact apply_bind_error hdirect f
  · rw [he] at hbus hactive hcells hstaged hdirect
    have hbind := apply_bind_ok he f
    obtain ⟨hbus', hactive', ⟨new', hcells'⟩, hstaged', hdirect'⟩ := hf a e' he
    constructor <;> rw [hbind]
    · exact hbus'.trans hbus
    · exact hactive'.trans hactive
    · obtain ⟨new, hcells⟩ := hcells
      exact ⟨new' ++ new, by rw [hcells', hcells, List.append_assoc]⟩
    · intro b hb
      rw [hstaged' b hb, hstaged a rfl, Option.map_map]
      simp only [Function.comp_def, List.reverse_append, List.append_assoc]
    · rw [apply_bind_ok hdirect, hdirect']

/-- What depends on the engine may not depend on where its stores are. -/
theorem defers_get {f : Engine σ → EngineM σ α} (hf : Defers (f e) e writes)
    (hsame : f e.commitWrites = f e) : Defers (get >>= f) e writes := by
  refine hf.congr (apply_get_bind f e) ?_
  rw [apply_get_bind, hsame]

/-- A check may be assumed to be passed: one that is not passed leaves the engine. -/
theorem defers_check {x : Except Fault α} {f : α → EngineM σ β}
    (hf : ∀ a, x = .ok a → Defers (f a) e writes) : Defers (liftM x >>= f) e writes := by
  have hbind : Defers (liftM x >>= f) e ([] ++ writes) := by
    refine ((observes_liftM x).defers e).bind fun a e' h => ?_
    rw [apply_liftExcept] at h
    obtain ⟨rfl, rfl⟩ := Prod.mk.inj h
    exact hf a rfl
  exact hbind

/-! ### Stores -/

theorem defers_putBytes {act : EngineM σ α} {r : Except Fault α}
    (hs : e.machine.staged.isSome = true)
    (h : ∀ e', e'.machine.active = e.machine.active →
      act e' = (r, { e' with machine := e'.machine.putBytes writes })) : Defers act e writes := by
  obtain ⟨staged, hs⟩ := Option.isSome_iff_exists.1 hs
  have hput : e.machine.putBytes writes =
      { e.machine with staged := some (writes.reverse ++ staged) } := by
    unfold Machine.putBytes
    rw [hs]
  have hdirect : act e.commitWrites = (r, { e with
      machine := (e.machine.putBytes writes).commitStores }) := by
    rw [h e.commitWrites rfl, Machine.commitStores_putBytes]
    rfl
  have hact := h e rfl
  rw [hput] at hact
  constructor <;> rw [hact]
  · exact ⟨[], rfl⟩
  · intro _ _
    rw [hs]
    rfl
  · rw [hdirect, hput]
    rfl

theorem defers_log (cells : List Cell) (e : Engine σ) :
    Defers (modify fun e => { e with log := cells.foldl MemoryLog.write e.log } : EngineM σ Unit)
      e [] := by
  have hcells : (cells.foldl MemoryLog.write e.log).cells = cells.reverse ++ e.log.cells := by
    rw [MemoryLog.foldl_write]
  exact defers_nil rfl rfl ⟨cells.reverse, hcells⟩ rfl rfl

/-- The store of an idle engine. It checks its operands before it looks at the machine. -/
theorem machineWriteMemory_defers (address data : Value) (hs : e.machine.staged.isSome = true) :
    Defers (onMachine (Machine.writeMemory address data)) e
      (Value.storeWrites e.machine.active address data) := by
  have hcheck {x : Except Fault Unit} {f : Unit → MachineM σ Unit}
      (hf : x = .ok () → Defers (onMachine (f ())) e
        (Value.storeWrites e.machine.active address data)) :
      Defers (onMachine (liftM x >>= f)) e
        (Value.storeWrites e.machine.active address data) := by
    rw [onMachine_bind, onMachine_liftM]
    exact defers_check fun _ hx => hf hx
  refine hcheck fun hw => hcheck fun ha => hcheck fun hd => ?_
  obtain ⟨r, hr⟩ := Machine.writeMemory_eq_putBytes (σ := σ) hw ha hd e.machine.active
  refine defers_putBytes (r := r) hs fun e' he' => ?_
  have hput := hr e'.machine he'
  unfold Machine.writeMemory at hput
  rw [apply_check_ok hw, apply_check_ok ha, apply_check_ok hd] at hput
  unfold onMachine
  rw [hput]

/-- The store of the concrete domain alone puts the same bytes in memory; where it is refused,
the refusal is a result and there are none. -/
theorem storeConcrete_eq_putBytes {address data : Value}
    (hw : checkAccessWidth data.bits = .ok ()) (ha : address.checkOperand "address" = .ok ())
    (hd : data.checkOperand "data" = .ok ()) :
    ∃ r, ∀ e : Engine σ, onMachine (ExceptT.lift
        (withActive .concreteOnly (Machine.writeMemory address data)).run) e =
      (.ok r, { e with
        machine := e.machine.putBytes (Value.storeWrites .concreteOnly address data) }) := by
  obtain ⟨r, hr⟩ := Machine.writeMemory_eq_putBytes (σ := σ) hw ha hd .concreteOnly
  refine ⟨r, fun e => ?_⟩
  have hput := hr { e.machine with active := .concreteOnly } rfl
  have hactive : (withActive .concreteOnly (Machine.writeMemory address data)).run e.machine =
      (r, e.machine.putBytes (Value.storeWrites .concreteOnly address data)) := by
    unfold withActive ExceptT.run
    simp only [Activation.setActive, Activation.active, hput]
    rw [Machine.putBytes_setActive]
  unfold onMachine
  rw [apply_lift, hactive]

theorem storeWrites_concreteOnly {active : DomainSet} (hc : active.contains .concrete = true)
    (address data : Value) :
    Value.storeWrites .concreteOnly address data = Value.storeWrites active address data := by
  unfold Value.storeWrites
  rw [if_pos hc]
  rfl

theorem storeConcrete_defers {address data : Value} (hs : e.machine.staged.isSome = true)
    (hc : e.machine.active.contains .concrete = true)
    (hw : checkAccessWidth data.bits = .ok ()) (ha : address.checkOperand "address" = .ok ())
    (hd : data.checkOperand "data" = .ok ()) :
    Defers (onMachine (ExceptT.lift
        (withActive .concreteOnly (Machine.writeMemory address data)).run)) e
      (Value.storeWrites e.machine.active address data) := by
  obtain ⟨r, hr⟩ := storeConcrete_eq_putBytes (σ := σ) hw ha hd
  refine defers_putBytes (r := .ok r) hs fun e' _ => ?_
  rw [hr, storeWrites_concreteOnly hc]

/-- The store of the concrete domain, if this is active, in front of what only adds to the
log. -/
theorem defers_storeConcrete {address data : Value} {f : Except Fault Unit → EngineM σ Unit}
    {log : EngineM σ Unit} (hs : e.machine.staged.isSome = true)
    (hw : checkAccessWidth data.bits = .ok ()) (ha : address.checkOperand "address" = .ok ())
    (hd : data.checkOperand "data" = .ok ()) (hlog : ∀ e', Defers log e' [])
    (hf : (∀ e', Defers log e' []) → ∀ r e', Defers (f r) e' []) :
    Defers (if e.machine.active.contains .concrete then
        onMachine (ExceptT.lift
          (withActive .concreteOnly (Machine.writeMemory address data)).run) >>= f
      else log) e (Value.storeWrites e.machine.active address data) := by
  by_cases hc : e.machine.active.contains .concrete = true
  · rw [if_pos hc, ← List.append_nil (Value.storeWrites e.machine.active address data)]
    exact (storeConcrete_defers hs hc hw ha hd).bind fun r e' _ => hf hlog r e'
  · rw [if_neg hc, Value.storeWrites_of_inactive (Bool.eq_false_iff.2 hc)]
    exact hlog e

/-- **A store defers its bytes.** What it puts in the log is new cells. -/
theorem writeMemory_defers (address data : Value) (hs : e.machine.staged.isSome = true) :
    Defers (writeMemory address data) e
      (Value.storeWrites e.machine.active address data) := by
  unfold writeMemory
  refine defers_get ?_ rfl
  by_cases htrig : (!e.governor.isTriggered) = true
  · rw [if_pos htrig]
    exact machineWriteMemory_defers address data hs
  rw [if_neg htrig]
  refine defers_check fun _ hw => defers_check fun _ ha => defers_check fun _ hd => ?_
  refine defers_storeConcrete hs hw ha hd (fun e' => ?_) fun hlog r e' => ?_
  · by_cases hsym : e.machine.active.contains .symbolic = true
    · rw [if_pos hsym]
      cases address.ensureTerm e.machine.active with
      | error fault => exact (observes_note _ _).defers e'
      | ok base => exact defers_check fun cells _ => defers_log cells e'
    · rw [if_neg hsym]
      exact (observes_pure ()).defers e'
  · cases r with
    | error fault => exact ((observes_note _ _).defers e').bind fun _ e'' _ => hlog e''
    | ok _ => exact hlog e'

/-- **A store after the trigger**, whose address and data have terms, puts its bytes in memory and
its cells in the log. Bytes that are not known are none, and only a warning. -/
theorem writeMemory_eq_putBytes {address data word : Value} {base : Term} {cells : List Cell}
    (htrig : e.governor.isTriggered = true) (hs : e.machine.active.contains .symbolic = true)
    (hw : checkAccessWidth data.bits = .ok ()) (ha : address.checkOperand "address" = .ok ())
    (hd : data.checkOperand "data" = .ok ())
    (hbase : address.ensureTerm e.machine.active = .ok base)
    (hword : data.ensure e.machine.active .symbolic = .ok word)
    (hcells : cellsOf e.machine.active base word = .ok cells) :
    ∃ s, s.solver = e.machine.symbolic.solver ∧ writeMemory address data e =
      (.ok (), ({ e with
        machine := e.machine.putBytes (Value.storeWrites e.machine.active address data)
        log := ⟨cells.reverse ++ e.log.cells⟩ } : Engine σ).withSymbolic s) := by
  unfold writeMemory
  rw [apply_get_bind, htrig, Bool.not_true, if_neg Bool.false_ne_true, apply_check_ok hw,
    apply_check_ok ha, apply_check_ok hd, if_pos hs, hbase, hword]
  by_cases hc : e.machine.active.contains .concrete = true
  · obtain ⟨r, hstored⟩ := storeConcrete_eq_putBytes (σ := σ) hw ha hd
    have hstored := hstored e
    have hsolver := congrArg Symbolic.solver
      (e.machine.symbolic_putBytes (Value.storeWrites e.machine.active address data))
    rw [storeWrites_concreteOnly hc] at hstored
    rw [if_pos hc]
    beta_reduce
    rw [apply_bind_ok hstored]
    dsimp only [Except.toOption, Option.getD_some]
    cases r with
    | ok _ =>
      refine ⟨_, hsolver, ?_⟩
      dsimp only
      rw [apply_check_ok hcells, apply_modify, MemoryLog.foldl_write]
      rfl
    | error fault =>
      obtain ⟨s, hnote, hs⟩ := note_keeps_solver (σ := σ)
        { e with machine := e.machine.putBytes (Value.storeWrites e.machine.active address data) }
        .warn fun _ => "concrete memory write skipped: " ++ fault.message
      refine ⟨s, hs.trans hsolver, ?_⟩
      dsimp only
      rw [apply_bind_ok hnote, apply_check_ok hcells, apply_modify, MemoryLog.foldl_write]
      rfl
  · refine ⟨e.machine.symbolic, rfl, ?_⟩
    rw [if_neg hc, Value.storeWrites_of_inactive (Bool.eq_false_iff.2 hc), Machine.putBytes_nil]
    dsimp only [Except.toOption, Option.getD_some]
    rw [apply_check_ok hcells, apply_modify, MemoryLog.foldl_write]
    rfl

/-! ### Registers -/

/-- A change of the machine that sets registers, whatever the memory is. -/
def SetsRegisters (f : Machine σ → Except Fault (Machine σ)) : Prop :=
  ∀ m : Machine σ, ∃ r : Except Fault RegisterFile, ∀ bus staged,
    f { m with bus, staged } = r.map fun registers => { m with bus, staged, registers }

theorem setsRegisters_write (r : Register) {g : Machine σ → Except Fault Value}
    (hg : ∀ m bus staged, g { m with bus, staged } = g m) :
    SetsRegisters (fun m => do m.writeRegister r (← g m)) := by
  intro m
  cases hv : g m with
  | error fault =>
    refine ⟨.error fault, fun bus staged => ?_⟩
    simp only [hg, hv]
    rfl
  | ok v =>
    refine ⟨if v.bits = r.bits then
      m.registers.set r <$> (m.registers.get r).overlay v m.active
      else .error (.registerWidth v.bits r), fun bus staged => ?_⟩
    simp only [hg, hv]
    show Machine.writeRegister _ r v = _
    unfold Machine.writeRegister
    by_cases hw : v.bits = r.bits
    · rw [if_pos hw, if_pos hw]
      cases (m.registers.get r).overlay v m.active <;> rfl
    · rw [if_neg hw, if_neg hw]
      rfl

theorem updateMachine_defers {f : Machine σ → Except Fault (Machine σ)} (hf : SetsRegisters f)
    (e : Engine σ) : Defers (updateMachine f) e [] := by
  obtain ⟨r, hr⟩ := hf e.machine
  have hhere := hr e.machine.bus e.machine.staged
  have hcommit := hr (e.machine.bus.setBytes (e.machine.staged.getD []).reverse) none
  cases r with
  | error fault =>
    have hfailed : updateMachine f e = (.error fault, e) := updateMachine_error hhere
    have hfailed' : updateMachine f e.commitWrites = (.error fault, e.commitWrites) :=
      updateMachine_error hcommit
    apply defers_nil <;> rw [hfailed]
    · exact ⟨[], rfl⟩
    · exact hfailed'
  | ok registers =>
    have hdone := updateMachine_ok hhere
    have hdone' : updateMachine f e.commitWrites = _ := updateMachine_ok hcommit
    apply defers_nil <;> rw [hdone]
    · exact ⟨[], rfl⟩
    · exact hdone'

theorem recordTrap_defers (vector : Nat) (e : Engine σ) : Defers (recordTrap vector) e [] := by
  show Defers _ e ([] ++ [])
  exact ((observes_note _ _).defers e).bind fun _ e' _ =>
    defers_nil rfl rfl ⟨[], rfl⟩ rfl rfl

theorem advance_defers (length : Nat) (e : Engine σ) : Defers (advance length) e [] := by
  let next (m : Machine σ) : Except Fault Value := do
    let length ← Value.number m.active addressBits length
    Value.binary m.active .add (m.readRegister .eip) length
  have hnext : SetsRegisters fun m => next m >>= m.writeRegister .eip :=
    setsRegisters_write .eip fun _ _ _ => rfl
  simp only [next, bind_assoc] at hnext
  exact updateMachine_defers hnext e

theorem defers_setRegister (name : String) (v : Value) (e : Engine σ) :
    Defers (updateMachine (·.writeNamed name v)) e [] := by
  refine updateMachine_defers (fun m => ?_) e
  cases hr : Register.named name with
  | error fault =>
    refine ⟨.error fault, fun bus staged => ?_⟩
    simp only [Machine.writeNamed, hr]
    rfl
  | ok r =>
    have hwrite := setsRegisters_write (σ := σ) (g := fun _ => .ok v) r fun _ _ _ => rfl
    simp only [Machine.writeNamed, hr]
    exact hwrite m

theorem defers_jump (v : Value) (e : Engine σ) :
    Defers (updateMachine (·.writeRegister .eip v)) e [] :=
  updateMachine_defers (setsRegisters_write (g := fun _ => .ok v) .eip fun _ _ _ => rfl) e

/-! ### Statements -/

variable [Solver σ]

/-- The bytes that a statement puts in memory, in order. -/
def statementWrites (e : Engine σ) : Statement → List (Nat × UInt8)
  | .store _ address value =>
    match evaluate address e with
    | (.error _, _) => []
    | (.ok a, e₁) =>
      match evaluate value e₁ with
      | (.error _, _) => []
      | (.ok v, e₂) => Value.storeWrites e₂.machine.active a v
  | _ => []

/-- The bytes that statements put in memory, in order, where each runs on the engine that the
ones before it leave. -/
def writesOf : Engine σ → List Statement → List (Nat × UInt8)
  | _, [] => []
  | e, s :: ss => e.statementWrites s ++ writesOf (perform s e).2 ss

/-- **A statement defers its stores.** -/
theorem perform_defers (s : Statement) (hs : e.machine.staged.isSome = true) :
    Defers (perform s) e (e.commitWrites.statementWrites s) := by
  cases s with
  | setRegister name x =>
    exact ((evaluate_observes x).defers e).bind fun v e₁ _ => defers_setRegister name v e₁
  | store size address value =>
    show Defers _ e ([] ++ ([] ++ e.commitWrites.statementWrites (.store size address value)))
    have haddress := (evaluate_observes address).defers e
    refine haddress.bind fun a e₁ h₁ => ?_
    have hvalue := (evaluate_observes value).defers e₁
    refine hvalue.bind fun v e₂ h₂ => ?_
    have hstaged := hvalue.isSome_staged h₂ (haddress.isSome_staged h₁ hs)
    have hwrites : e.commitWrites.statementWrites (.store size address value) =
        Value.storeWrites e₂.machine.active a v := by
      have ha := haddress.direct
      have hv := hvalue.direct
      rw [h₁] at ha
      rw [h₂] at hv
      simp only [statementWrites, ha, hv]
      rfl
    rw [hwrites]
    have hstore := writeMemory_defers a v hstaged
    by_cases hsize : v.bits ≠ size
    · rw [if_pos hsize]
      exact defers_check (x := .error (.storeWidth size v.bits)) nofun
    · rw [if_neg hsize]
      exact hstore
  | jump target =>
    exact ((evaluate_observes target).defers e).bind fun v e₁ _ => defers_jump v e₁
  | trap vector => exact recordTrap_defers vector e

/-- **Statements defer their stores.** By induction on the list: the rest starts on the engine
that the first one leaves, and with the stores on the bus it starts on the committed one. -/
theorem performAll_defers (ss : List Statement) (hs : e.machine.staged.isSome = true) :
    Defers (ss.forM perform) e (e.commitWrites.writesOf ss) := by
  induction ss generalizing e with
  | nil => exact (observes_pure ()).defers e
  | cons s ss ih =>
    have hfirst := perform_defers s hs
    show Defers (perform s >>= fun _ => ss.forM perform) e
      (e.commitWrites.statementWrites s ++ (perform s e.commitWrites).2.writesOf ss)
    rw [hfirst.direct]
    refine hfirst.bind fun _ e' h => ?_
    rw [h]
    exact ih (hfirst.isSome_staged h hs)

/-- **An instruction defers the stores of its statements.** -/
theorem run_defers (i : Instruction) (hs : e.machine.staged.isSome = true) :
    Defers (run i) e (e.commitWrites.writesOf i.statements) := by
  unfold run
  refine defers_get (defers_check fun _ _ => ?_) rfl
  rw [← List.append_nil (writesOf _ _)]
  refine (performAll_defers i.statements hs).bind fun _ e' _ => ?_
  cases i.jumps with
  | true => exact (observes_pure ()).defers e'
  | false => exact advance_defers i.length e'

end Engine
end Lockstep
