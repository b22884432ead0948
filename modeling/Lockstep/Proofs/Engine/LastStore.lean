/-
# The last store to an address

The stores of a run are those of its instructions, in the order in which they
reach the bus. After a run that succeeds, the number of a byte is the one that
was stored last at its address, whatever kind of instruction stored it. The
log has only the stores of ordinary instructions; it tells of the same byte if
the instructions that are like traps changed nothing.

Key definitions: `Engine.stores`, `Engine.runStores`, `Engine.Succeeds`.
Key theorems: `Engine.execute_stores`, `Engine.executeAll_stores`, `Engine.readMemory_byte`,
`Engine.executeAll_lastStore`.
-/
import Lockstep.Proofs.Engine.Atomicity
import Lockstep.Proofs.Engine.Traps

namespace Lockstep

/-! ### Single bytes -/

/-- The byte that was written last at an address is on the bus. -/
theorem Bus.getByte_setBytes_last (b : Bus) (earlier : List (Nat × UInt8)) (a : Nat) (byte : UInt8)
    {later : List (Nat × UInt8)} (hlater : ∀ w ∈ later, w.1 ≠ a) :
    (b.setBytes (earlier ++ (a, byte) :: later)).getByte a = byte := by
  have hcons (c : Bus) : c.setBytes ((a, byte) :: later) = (c.setByte a byte).setBytes later := rfl
  rw [setBytes_append, hcons, getByte_setBytes_of_ne _ hlater, getByte_setByte, if_pos rfl]

theorem Machine.load_byte {σ : Type} (m : Machine σ) {a : Nat} (ha : a < Word.count addressBits) :
    m.load a 8 = (m.getByte a).toNat := by
  have haddress : byteAddress a 0 = a := Word.truncate_of_lt ha
  have hload : m.load a 8 = (m.getByte (byteAddress a 0)).toNat + Word.weight 8 * 0 := rfl
  rw [hload, haddress, Nat.mul_zero, Nat.add_zero]

namespace Engine

variable {σ : Type} [Solver σ] {V : Widths} {e : Engine σ} {ρ : Assignment}

/-! ### The stores of a run -/

/-- The bytes that a triggered instruction puts on the bus, in order. -/
def stores (e : Engine σ) (i : Instruction) : List (Nat × UInt8) :=
  (beforeInstruction i e).2.writesOf i.statements

/-- The bytes that the instructions of a run put on the bus, in order. -/
def runStores : Engine σ → List Instruction → List (Nat × UInt8)
  | _, [] => []
  | e, i :: is => e.stores i ++ runStores (execute i e).2 is

/-- Does the instruction succeed? -/
def Succeeds (e : Engine σ) (i : Instruction) : Prop := (execute i e).1 = .ok ()

/-- **An instruction that succeeds** has its stores on the bus, whatever its kind. -/
theorem execute_stores {i : Instruction} (hdef : i.Defined) (h : e.Settled V)
    (htrig : e.governor.isTriggered = true)
    (hfresh : V.Fresh e.machine.symbolic.nextVariable) (hok : e.Succeeds i) :
    (execute i e).2.machine.bus = e.machine.bus.setBytes (e.stores i) := by
  obtain ⟨e₁, hbefore, hentered⟩ := beforeInstruction_entered h htrig i
  have hbus₁ : e₁.machine.bus = e.machine.bus := by
    obtain ⟨v, -, halike⟩ := hentered.located
    exact halike.bus
  have hfresh₁ : V.Fresh e₁.machine.symbolic.nextVariable := by
    rw [hentered.located.next]
    exact hfresh
  have hgovernor : (step i e₁).2.governor = e₁.governor :=
    (step_stepped hdef hfresh₁ hentered.ready hentered.staged).governor
  obtain ⟨e₃, hact, halike⟩ := execute_eq htrig hbefore rfl (hgovernor ▸ hentered.triggered)
  have hstep : step i e₁ = (.ok (), (step i e₁).2) := by
    unfold Succeeds at hok
    rw [hact] at hok
    exact Prod.ext hok rfl
  have hwritten := (step_succeeded hentered.staged hstep).1.bus
  have hstores : e.stores i = e₁.writesOf i.statements := by
    rw [stores, hbefore]
  rw [hact, hstores, ← hbus₁]
  exact halike.bus.trans hwritten

/-- **A run that succeeds** has its stores on the bus, by induction on its instructions. -/
theorem executeAll_stores {is : List Instruction} (hdef : ∀ i ∈ is, i.Defined) (h : e.Settled V)
    (htrig : e.governor.isTriggered = true)
    (hfresh : V.Fresh e.machine.symbolic.nextVariable) (hok : Throughout Succeeds e is) :
    (e.executeAll is).machine.bus = e.machine.bus.setBytes (e.runStores is) := by
  induction is generalizing e with
  | nil => rfl
  | cons i is ih =>
    obtain ⟨hdi, hdis⟩ := List.forall_mem_cons.1 hdef
    obtain ⟨hi, his⟩ := hok
    have hout := execute_executed hdi hfresh h
    have hrest := ih hdis hout.settled (hout.phase.trans htrig) (hfresh.mono hout.le) his
    rw [execute_stores hdi h htrig hfresh hi] at hrest
    rw [runStores, Bus.setBytes_append]
    exact hrest

/-! ### The byte that is read -/

/-- **A byte at a constant address** is read with the number that the bus has. If the log mirrors
the bus, all domains tell of this number. -/
theorem readMemory_byte (h : e.Settled V) {address : Value} {a : Nat}
    (ha : a < Word.count addressBits)
    (haddress : Value.number e.machine.active addressBits a = .ok address) :
    ∃ v s', readMemory address 8 e = (.ok v, e.withSymbolic s') ∧ v.bits = 8 ∧
      v.concrete = some (e.machine.bus.getByte a).toNat ∧
      ∀ start ρ, Solver.RightOver σ V →
        (e.machine.active.contains .symbolic = true → e.Mirrors start ρ) →
        ∃ ρ', v.Describes ρ' (e.machine.bus.getByte a).toNat := by
  obtain ⟨u, hu, hshape, hdesc⟩ := number_address (e.widths V) e.machine.active a
  obtain rfl := Except.ok.inj (haddress.symm.trans hu)
  rw [Word.truncate_of_lt ha] at hshape hdesc
  have hknown : address.concrete = some a := by
    rw [hshape.concrete]
    exact Value.only_eq_some.2 ⟨h.ready.concrete, rfl⟩
  have hacc : Accessible (e.widths V) e address a :=
    ⟨h.ready.concrete, h.ready.triggered, h.ready.cells, hshape.wellFormed, hknown⟩
  have hwidth : checkAccessWidth 8 = .ok () := rfl
  obtain ⟨v, s', hread, hv⟩ := readMemory_ok hacc hwidth fun _ t ht =>
    .inl ((hshape.wellFormed.symbolic? ht).2.trans hshape.bits)
  have hload : e.machine.load a 8 = (e.machine.bus.getByte a).toNat := by
    rw [e.machine.load_byte ha, Machine.getByte_eq, h.staged]
    rfl
  refine ⟨v, s', hread, hv.width, hload ▸ hv.concrete, fun start ρ hsolver hmirrors => ?_⟩
  obtain ⟨ρ', -, hd⟩ :=
    hv.sound start ρ (hsolver.below _) (fun _ _ hid => hid.2) (hdesc ρ) hmirrors
  exact ⟨ρ', hload ▸ hd⟩

/-- **The last store to an address is read.** If its ranges are near zero, then every bound fits
that a triggered run and a load after it compute. Where they fit, after a run that succeeds a byte
is read with the number that was stored last at its address, whatever the solver is. If moreover
the solver is right, the registers were compatible at the trigger and the traps of the run leave
the numbers of registers, but for the address of the next instruction, and the bus, then the range
of the byte has this number, and a constant term of it is this number. -/
theorem executeAll_lastStore (h : e.JustTriggered V)
    (hfresh : V.Fresh e.machine.symbolic.nextVariable) {is : List Instruction}
    (hdef : ∀ i ∈ is, i.Defined) (hok : Throughout Succeeds e is)
    {earlier later : List (Nat × UInt8)} {a : Nat} {byte : UInt8}
    (hstores : e.runStores is = earlier ++ (a, byte) :: later) (hlater : ∀ w ∈ later, w.1 ≠ a)
    (ha : a < Word.count addressBits) {address : Value}
    (haddress : Value.number (e.executeAll is).machine.active addressBits a = .ok address) :
    (e.Near → Throughout Fits e is ∧ loadFits address 8 (e.executeAll is) = true) ∧
    (Throughout Fits e is → loadFits address 8 (e.executeAll is) = true →
      ∃ v s', readMemory address 8 (e.executeAll is) =
          (.ok v, (e.executeAll is).withSymbolic s') ∧
        v.concrete = some byte.toNat ∧
        (Solver.RightOver σ V → Throughout KeepsAtTraps e is → (∃ ρ, e.Compatible ρ) →
          (∀ i, v.interval = some i → i.contains 8 byte.toNat = true) ∧
            ∀ t n, v.symbolic = some t → t.const? = some n → n = byte.toNat)) := by
  refine ⟨fun hnear => ⟨throughout_fits hnear is, ?_⟩, fun _ _ => ?_⟩
  · exact loadFits_of_near (near_executeAll hnear is) address 8
  obtain ⟨hsettled, hphase, -⟩ := executeAll_settled hdef h.settled hfresh
  have hbus := executeAll_stores hdef h.settled h.triggered hfresh hok
  have hbyte : (e.executeAll is).machine.bus.getByte a = byte := by
    rw [hbus, hstores]
    exact Bus.getByte_setBytes_last _ _ _ _ hlater
  obtain ⟨v, s', hread, hbits, hconcrete, hdescribes⟩ := readMemory_byte hsettled ha haddress
  rw [hbyte] at hconcrete hdescribes
  refine ⟨v, s', hread, hconcrete, fun hsolver hkeep hcompatible => ?_⟩
  obtain ⟨ρ, hρ⟩ := hcompatible
  obtain ⟨ρ₁, -, hc⟩ := executeAll_elsewhere hsolver hdef hkeep h.settled h.triggered hfresh
    (h.consistent hρ).elsewhere
  obtain ⟨ρ₂, hd⟩ := hdescribes e.machine.bus ρ₁ hsolver hc.log
  refine ⟨fun i hi => ?_, fun t n ht hn => ?_⟩
  · have hmem := hbits ▸ hd.interval i hi
    exact Interval.contains_of_mem hmem (hbits ▸ hd.lt)
  · rw [← hd.symbolic t ht, Term.eval_of_const? hn]

/-- A byte is stored, a trap follows and then a store to another address: the byte is read. -/
theorem executeAll_lastStore_kept :
    let e : Engine Backend := (trigger 0 (Engine.start .empty {} (some (builtIn {})))).2
    let store (address a n : Nat) : Instruction :=
      ⟨address, 2, .other, "", [.store 8 (.const a 32) (.const n 8)]⟩
    let is : List Instruction := [store 0 64 17, ⟨2, 2, .int, "", [.trap 128]⟩, store 4 65 34]
    ∃ address v s', Value.number (e.executeAll is).machine.active addressBits 64 = .ok address ∧
      readMemory address 8 (e.executeAll is) = (.ok v, (e.executeAll is).withSymbolic s') ∧
      v.concrete = some 17 ∧ (∀ i, v.interval = some i → i.contains 8 17 = true) ∧
      ∀ t n, v.symbolic = some t → t.const? = some n → n = 17 := by
  intro e store is
  have hstart := fresh_settled .empty {} (some (builtIn {}))
  obtain ⟨ρ, hρ⟩ := start_describes .empty {} (some (builtIn {})) (List.forall_mem_nil _)
  obtain ⟨e₁, hact, hjust, hnext, hcompatible⟩ := trigger_justTriggered hstart rfl rfl 0
  have he : e = e₁ := congrArg Prod.snd hact
  rw [← he] at hjust hnext hcompatible
  have hfresh : Register.widths.Fresh e.machine.symbolic.nextVariable :=
    hnext ▸ Register.fresh_widths
  have hdef : ∀ i ∈ is, i.Defined := by
    simp [is, store, Instruction.Defined, Statement.Defined, Expr.Defined]
  have hok : Throughout Succeeds e is := by
    refine ⟨?_, ?_, ?_, trivial⟩ <;> unfold Succeeds <;> decide +kernel
  have hstores : e.runStores is = [] ++ (64, 17) :: [(65, 34)] := by decide +kernel
  have hkeep : Throughout KeepsAtTraps e is := by
    have hordinary : ¬ InstructionKind.other.isTrap = true := by decide
    have hfirst := execute_executed (hdef _ List.mem_cons_self) hfresh hjust.settled
    refine ⟨fun h => absurd h hordinary, ?_, fun h => absurd h hordinary, trivial⟩
    exact keepsAtTraps_of_traps hfirst.settled (hfirst.phase.trans hjust.triggered)
      (List.forall_mem_singleton.2 ⟨128, rfl⟩)
  obtain ⟨address, haddress, -⟩ :=
    number_address Register.widths (e.executeAll is).machine.active 64
  have hnear : e.Near := (stays_trigger 0 _ (near_start .empty {} _)).1
  obtain ⟨hfits, hrun⟩ :=
    executeAll_lastStore hjust hfresh hdef hok hstores (by simp) (by decide) haddress
  obtain ⟨hfitsRun, hfitsLoad⟩ := hfits hnear
  obtain ⟨v, s', hread, hn, hdomains⟩ := hrun hfitsRun hfitsLoad
  have hsolver := Backend.rightOver Register.functional_widths
  exact ⟨address, v, s', haddress, hread, hn, hdomains hsolver hkeep ⟨ρ, hcompatible ρ hρ⟩⟩

/-- A byte that ordinary instructions store first and a trap stores last, and one that is stored
last through a register whose number and term are not the same address: the number that is read
is the byte that was stored last, and neither the range nor the term has it. -/
theorem executeAll_lastStore_lost :
    let fresh : Engine Backend := Engine.start .empty {} (some (builtIn {}))
    let apart : Value := ⟨32, some 64, none, some (.const 32 80)⟩
    let e := (trigger 0 fresh).2
    let e₂ := (trigger 0 (fresh.withRegisters (fresh.machine.registers.set .eax apart))).2
    let store (address : Nat) (kind : InstructionKind) (a : Expr) (n : Nat) : Instruction :=
      ⟨address, 2, kind, "", [.store 8 a (.const n 8)]⟩
    let is := [store 0 .other (.const 64 32) 17, store 2 .int (.const 64 32) 34]
    let is₂ := [store 0 .other (.const 64 32) 17, store 2 .other (.register "eax") 34]
    let address : Value := ⟨32, some 64, some ⟨64, 64⟩, some (.const 32 64)⟩
    let read : Value := ⟨8, some 34, some ⟨17, 17⟩, some (.const 8 17)⟩
    (Throughout Succeeds e is ∧ e.runStores is = [(64, 17), (64, 34)] ∧
      (e.executeAll is).machine.active = .all ∧
      (readMemory address 8 (e.executeAll is)).1 = .ok read) ∧
    Throughout Succeeds e₂ is₂ ∧ e₂.runStores is₂ = [(64, 17), (64, 34)] ∧
      (e₂.executeAll is₂).machine.active = .all ∧
      (readMemory address 8 (e₂.executeAll is₂)).1 = .ok read ∧
      (⟨17, 17⟩ : Interval).contains 8 34 = false := by
  intro fresh apart e e₂ store is is₂ address read
  have hok : Throughout Succeeds e is := by
    refine ⟨?_, ?_, trivial⟩ <;> unfold Succeeds <;> decide +kernel
  have hok₂ : Throughout Succeeds e₂ is₂ := by
    refine ⟨?_, ?_, trivial⟩ <;> unfold Succeeds <;> decide +kernel
  exact ⟨⟨hok, by decide +kernel, by decide +kernel, by decide +kernel⟩, hok₂, by decide +kernel,
    by decide +kernel, by decide +kernel, by decide⟩

end Engine
end Lockstep
