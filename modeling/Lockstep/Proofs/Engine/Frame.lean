/-
# What an evaluation sees of memory

Expressions load and never store: an evaluation changes the symbolic state
only, and all it sees of the memory are the bytes that loads return. So it has
the same result on a bus that already has the staged stores.

Key definitions: `Engine.withMemory`, `Engine.SameBytes`, `Engine.Observes`.
Key theorems: `Engine.sameBytes_commitStores`, `Engine.Observes.bind`,
`Engine.onMachine_readMemory`, `Engine.readMemory_observes`, `Engine.evaluate_observes`.
-/
import Lockstep.Proofs.Engine.Load
import Lockstep.Step

namespace Lockstep
namespace Engine

variable {σ α β : Type}

/-! ### Other memories -/

/-- The engine with another memory. -/
def withMemory (e : Engine σ) (bus : Bus) (staged : Option (List (Nat × UInt8))) : Engine σ :=
  { e with machine := { e.machine with bus, staged } }

/-- Do loads return the same bytes in another memory? -/
def SameBytes (e : Engine σ) (bus : Bus) (staged : Option (List (Nat × UInt8))) : Prop :=
  ∀ a, (e.withMemory bus staged).machine.getByte a = e.machine.getByte a

variable {e : Engine σ} {bus : Bus} {staged : Option (List (Nat × UInt8))}

theorem SameBytes.load (h : e.SameBytes bus staged) (address bits : Nat) :
    (e.withMemory bus staged).machine.load address bits = e.machine.load address bits := by
  rw [Machine.load_eq_gather, Machine.load_eq_gather]
  exact Word.gather_congr fun i _ => congrArg UInt8.toNat (h _)

theorem sameBytes_commitStores (e : Engine σ) :
    e.SameBytes (e.machine.bus.setBytes (e.machine.staged.getD []).reverse) none := by
  intro a
  rw [Machine.getByte_eq, Machine.getByte_eq]
  exact Bus.getByte_setBytes _ _ _

/-! ### Computations that only observe -/

/-- A computation that changes the symbolic state only, and that has the same result in every
memory with the same bytes. -/
structure Observes (act : EngineM σ α) : Prop where
  frame : ∀ e, ∃ s, (act e).2 = e.withSymbolic s
  memory : ∀ e bus staged, e.SameBytes bus staged →
    act (e.withMemory bus staged) = ((act e).1, (act e).2.withMemory bus staged)

theorem observes_pure (a : α) : Observes (pure a : EngineM σ α) :=
  ⟨fun e => ⟨e.machine.symbolic, rfl⟩, fun _ _ _ _ => rfl⟩

theorem observes_liftM (x : Except Fault α) : Observes (liftM x : EngineM σ α) := by
  refine ⟨fun e => ⟨e.machine.symbolic, ?_⟩, fun e bus staged _ => ?_⟩
  · rw [apply_liftExcept]
    rfl
  · rw [apply_liftExcept, apply_liftExcept]

theorem observes_symbolically (act : ExceptT Fault (SymbolicM σ) α) :
    Observes (symbolically act) :=
  ⟨fun _ => ⟨_, rfl⟩, fun _ _ _ _ => rfl⟩

theorem observes_note (level : Level) (message : Unit → String) :
    Observes (note level message : EngineM σ Unit) :=
  ⟨fun _ => ⟨_, rfl⟩, fun _ _ _ _ => rfl⟩

/-- What depends on the engine may depend on its loads but not on where they come from. -/
theorem observes_get {f : Engine σ → EngineM σ α} (hf : ∀ e₀, Observes (f e₀))
    (hsame : ∀ e bus staged, e.SameBytes bus staged → f (e.withMemory bus staged) = f e) :
    Observes (get >>= f) := by
  refine ⟨fun e => ?_, fun e bus staged h => ?_⟩
  · rw [apply_get_bind]
    exact (hf e).frame e
  · rw [apply_get_bind, apply_get_bind, hsame e bus staged h]
    exact (hf e).memory e bus staged h

/-- **Observing in sequence.** -/
theorem Observes.bind {x : EngineM σ α} {f : α → EngineM σ β} (hx : Observes x)
    (hf : ∀ a, Observes (f a)) : Observes (x >>= f) := by
  have hstep : ∀ e, (∃ fault s, x e = (.error fault, e.withSymbolic s)) ∨
      ∃ a s, x e = (.ok a, e.withSymbolic s) := by
    intro e
    obtain ⟨s, hs⟩ := hx.frame e
    rcases he : x e with ⟨fault | a, e'⟩
    · rw [he] at hs
      exact .inl ⟨fault, s, congrArg (Prod.mk _) hs⟩
    · rw [he] at hs
      exact .inr ⟨a, s, congrArg (Prod.mk _) hs⟩
  refine ⟨fun e => ?_, fun e bus staged h => ?_⟩
  · rcases hstep e with ⟨fault, s, he⟩ | ⟨a, s, he⟩
    · rw [apply_bind_error he]
      exact ⟨s, rfl⟩
    · rw [apply_bind_ok he]
      exact (hf a).frame (e.withSymbolic s)
  · have hmemory := hx.memory e bus staged h
    rcases hstep e with ⟨fault, s, he⟩ | ⟨a, s, he⟩
    · rw [he] at hmemory
      rw [apply_bind_error he, apply_bind_error hmemory]
    · rw [he] at hmemory
      rw [apply_bind_ok he, apply_bind_ok hmemory]
      exact (hf a).memory (e.withSymbolic s) bus staged h

theorem observes_foldlM {f : β → α → EngineM σ β} (hf : ∀ b a, Observes (f b a)) (l : List α)
    (b : β) : Observes (l.foldlM f b) := by
  induction l generalizing b with
  | nil => exact observes_pure b
  | cons a l ih =>
    rw [List.foldlM_cons]
    exact (hf b a).bind ih

/-! ### Loads -/

theorem onMachine_bind (x : MachineM σ α) (f : α → MachineM σ β) :
    onMachine (x >>= f) = onMachine x >>= fun a => onMachine (f a) := by
  funext e
  rcases hx : x e.machine with ⟨fault | a, m⟩
  · have h : onMachine x e = (.error fault, { e with machine := m }) := by
      unfold onMachine
      rw [hx]
    rw [apply_bind_error h]
    unfold onMachine
    rw [apply_bind_error hx]
  · have h : onMachine x e = (.ok a, { e with machine := m }) := by
      unfold onMachine
      rw [hx]
    rw [apply_bind_ok h]
    unfold onMachine
    rw [apply_bind_ok hx]

theorem onMachine_liftM (x : Except Fault α) :
    (onMachine (liftM x : MachineM σ α)) = (liftM x : EngineM σ α) := by
  funext e
  rw [apply_liftExcept]
  unfold onMachine
  rw [apply_liftExcept]

/-- A word of which only a number may be known. -/
def numberedWord (active : DomainSet) (bits : Nat) (n : Option Nat) : EngineM σ Value := do
  let v ← symbolically (Value.undefined active bits)
  pure { v with concrete := active.only .concrete n }

/-- **A load of the machine** in steps of the engine: after its checks it warns, if the concrete
domain asks for a word at no known address, and gives a word that has the number there. -/
theorem onMachine_readMemory (address : Value) (bits : Nat) :
    (onMachine (Machine.readMemory address bits) : EngineM σ Value) =
      (liftM (checkAccessWidth bits) >>= fun _ => liftM (address.checkOperand "address") >>=
        fun _ => get >>= fun e =>
          (if e.machine.active.contains .concrete && address.known?.isNone then
            onMachine (Machine.note .warn fun _ =>
              "memory read with no concrete address; concrete result unknown")
            else pure ()) >>= fun _ =>
          numberedWord e.machine.active bits (address.known?.map (e.machine.load · bits))) := by
  have hcheck {x : Except Fault Unit} {f : Unit → MachineM σ Value} {g : Unit → EngineM σ Value}
      (hfg : onMachine (f ()) = g ()) : onMachine (liftM x >>= f) = liftM x >>= g := by
    rw [onMachine_bind, onMachine_liftM]
    exact congrArg _ (funext fun _ => hfg)
  refine hcheck (hcheck (funext fun e => ?_))
  rw [apply_get_bind]
  show onMachine (if _ then _ else _) e = _
  by_cases hwarn : (e.machine.active.contains .concrete && address.known?.isNone) = true
  · rw [if_pos hwarn, if_pos hwarn]
    simp only [onMachine_bind]
    rfl
  · rw [if_neg hwarn, if_neg hwarn, onMachine_bind]
    rfl

/-- What the machine knows of a word in memory depends on its loads alone. -/
theorem machineReadMemory_observes (address : Value) (bits : Nat) :
    Observes (onMachine (Machine.readMemory address bits) : EngineM σ Value) := by
  rw [onMachine_readMemory]
  refine (observes_liftM _).bind fun _ => (observes_liftM _).bind fun _ => ?_
  refine observes_get (fun e => ?_) fun e bus staged h => ?_
  · refine Observes.bind ?_ fun _ => (observes_symbolically _).bind fun v => observes_pure _
    split
    · exact observes_symbolically _
    · exact observes_pure ()
  · have hload : (fun a => (e.withMemory bus staged).machine.load a bits) =
        fun a => e.machine.load a bits := funext fun a => h.load a bits
    rw [hload]
    rfl

variable [Solver σ]

theorem readLogBytes_observes (base : Term) (count : Nat) :
    Observes (readLogBytes base count : EngineM σ Value) := by
  have hbyte : ∀ i, Observes (readLogByte base i : EngineM σ Value) := fun i =>
    observes_get (fun _ => observes_symbolically _) fun _ _ _ _ => rfl
  refine (hbyte 0).bind fun first => observes_foldlM (fun lo i => ?_) _ first
  refine (hbyte (i + 1)).bind fun byte => ?_
  exact observes_get (fun _ => observes_liftM _) fun _ _ _ _ => rfl

/-- **A load observes.** -/
theorem readMemory_observes (address : Value) (bits : Nat) :
    Observes (readMemory address bits : EngineM σ Value) := by
  refine observes_get (fun e₀ => ?_) fun _ _ _ _ => rfl
  have hmachine := machineReadMemory_observes (σ := σ) address bits
  by_cases htrig : (!e₀.governor.isTriggered) = true
  · rw [if_pos htrig]
    exact hmachine
  rw [if_neg htrig]
  refine (observes_liftM _).bind fun _ => (observes_liftM _).bind fun _ => ?_
  by_cases hsym : (!e₀.machine.active.contains .symbolic) = true
  · rw [if_pos hsym]
    exact hmachine
  rw [if_neg hsym]
  cases address.ensureTerm e₀.machine.active with
  | error fault => exact (observes_note _ _).bind fun _ => hmachine
  | ok base =>
    refine (readLogBytes_observes base _).bind fun v => ?_
    refine observes_get (fun _ => observes_pure _) fun e bus staged h => ?_
    cases address.known? with
    | none => rfl
    | some a =>
      dsimp only
      rw [h.load]
      rfl

/-! ### Expressions -/

theorem xor_observes (a b : Value) : Observes (xor a b : EngineM σ Value) := by
  refine observes_get (fun e₀ => ?_) fun _ _ _ _ => rfl
  exact (observes_liftM _).bind fun v => observes_symbolically _

theorem combine_observes (op : BinaryOp) (a b : Value) :
    Observes (combine op a b : EngineM σ Value) := by
  cases op with
  | xor => exact xor_observes a b
  | _ => exact observes_get (fun _ => observes_liftM _) fun _ _ _ _ => rfl

/-- **An evaluation observes.** By induction on the expression: its operands observe, and so
does what is done with their values. -/
theorem evaluate_observes (x : Expr) : Observes (evaluate x : EngineM σ Value) := by
  -- most forms end with an operation on values that looks at the active domains or registers
  have hlast {f : Engine σ → Except Fault Value}
      (hf : ∀ e bus staged, f (e.withMemory bus staged) = f e) :
      Observes (get >>= fun e => liftM (f e) : EngineM σ Value) :=
    observes_get (fun _ => observes_liftM _) fun e bus staged _ => by rw [hf e bus staged]
  induction x with
  | const value size => exact hlast fun _ _ _ => rfl
  | register name => exact hlast fun _ _ _ => rfl
  | memory size a ih => exact ih.bind fun u => readMemory_observes u size
  | binary op a b iha ihb => exact iha.bind fun u => ihb.bind fun v => combine_observes op u v
  | invert a ih => exact ih.bind fun u => hlast fun _ _ _ => rfl
  | slice a lo hi ih => exact ih.bind fun u => hlast fun _ _ _ => rfl
  | concat lo hi ihl ihh => exact ihl.bind fun u => ihh.bind fun v => hlast fun _ _ _ => rfl
  | isZero a ih => exact ih.bind fun u => hlast fun _ _ _ => rfl
  | ite c t f ihc iht ihf =>
    exact ihc.bind fun w => iht.bind fun u => ihf.bind fun v => hlast fun _ _ _ => rfl
  | undefined size => exact observes_get (fun _ => observes_symbolically _) fun _ _ _ _ => rfl

end Engine
end Lockstep
