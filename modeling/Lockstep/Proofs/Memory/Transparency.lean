/-
# Staging is transparent

While stores are staged the bus waits, and loads answer as if it did not. To
know what they answer it is enough to look at the bus as a commit would leave
it: a load is a load from that bus, and a store is a store to it. So accesses
of any widths, at addresses that overlap or wrap, give on the machine what
they give on the bus itself, and only a commit or a discard tells the two
apart.

Key definitions: `Known`, `Access`, `Access.direct`, `Access.perform`, `Machine.memory`.
Key theorems: `Machine.load_eq_memory`, `Machine.memory_store`, `Access.perform_eq`,
`Access.mapM_perform`, `Access.mapM_perform_stageStores`.
-/
import Lockstep.Proofs.Engine.Staging
import Lockstep.Proofs.Engine.Steady

namespace Lockstep

variable {σ : Type}

/-! ### The bus that a commit would leave -/

namespace Machine

variable {m : Machine σ} {bits : Nat}

/-- The bus as a commit of the staged stores would leave it. -/
def memory (m : Machine σ) : Bus := m.commitStores.bus

/-- Bytes that are put in memory, staged or not, come after those that are there. -/
theorem memory_putBytes (m : Machine σ) (writes : List (Nat × UInt8)) :
    (m.putBytes writes).memory = m.memory.setBytes writes := by
  unfold memory
  rw [commitStores_putBytes]
  rfl

theorem putBytes_append (m : Machine σ) (ws vs : List (Nat × UInt8)) :
    m.putBytes (ws ++ vs) = (m.putBytes ws).putBytes vs := by
  obtain ⟨active, symbolic, registers, bus, staged⟩ := m
  cases staged with
  | none => simp only [putBytes, Bus.setBytes_append]
  | some staged => simp only [putBytes, List.reverse_append, List.append_assoc]

/-- Where the bytes are put, the symbolic state does not matter. -/
theorem putBytes_setSymbolic (m : Machine σ) (s : Symbolic σ) (writes : List (Nat × UInt8)) :
    ({ m with symbolic := s } : Machine σ).putBytes writes =
      { m.putBytes writes with symbolic := s } := by
  unfold putBytes
  cases m.staged <;> rfl

theorem getByte_memory (m : Machine σ) (a : Nat) : m.memory.getByte a = m.getByte a := by
  rw [getByte_eq, ← Bus.getByte_setBytes]
  rfl

/-- **A load is one from the bus that a commit would leave.** -/
theorem load_eq_memory (hw : checkAccessWidth bits = .ok ()) (m : Machine σ) (address : Nat) :
    m.load address bits = m.memory.load address bits := by
  unfold load Bus.load Bus.loadBytes
  rw [max_bytes hw]
  simp only [getByte_memory]

/-- **A store is one to the bus that a commit would leave.** -/
theorem memory_store (hw : checkAccessWidth bits = .ok ()) (m : Machine σ) (address n : Nat) :
    (m.store address bits n).memory = m.memory.store address bits n := by
  rw [store_eq_putBytes hw, memory_putBytes, Bus.store, max_bytes hw]

end Machine

/-! ### Accesses -/

/-- A value that is known to be a number. -/
structure Known where
  value : Value
  number : Nat
  known : value.known? = some number

theorem Known.checkOperand (k : Known) (role : String) : k.value.checkOperand role = .ok () := by
  obtain ⟨t, ht⟩ := Value.symbolic?_isSome k.known
  exact Value.checkOperand_of_symbolic? ht role

/-- A load or a store at a known address, of a width that memory has; what is stored is known. -/
inductive Access where
  | load (address : Known) (bits : Nat) (width : checkAccessWidth bits = .ok ())
  | store (address data : Known) (width : checkAccessWidth data.value.bits = .ok ())

namespace Machine

variable {m : Machine σ} {bits : Nat} {address data : Known}

/-- A load at a known address finds the number there, and leaves the machine but for its symbolic
state. -/
theorem readMemory_known (hw : checkAccessWidth bits = .ok ())
    (hc : m.active.contains .concrete = true) (address : Known) :
    ∃ v s, readMemory address.value bits m = (.ok v, { m with symbolic := s }) ∧
      v.concrete = some (m.load address.number bits) := by
  obtain ⟨-, hpos, hle⟩ := Engine.bounds_of_checkAccessWidth hw
  obtain ⟨v, s, hv⟩ : ∃ v s, Value.undefined m.active bits m.symbolic = (.ok v, s) := by
    by_cases hs : m.active.contains .symbolic = true
    · exact ⟨_, _, Engine.undefined_active hs hpos hle m.symbolic⟩
    · exact ⟨_, _, Engine.undefined_eq hpos hle (Bool.eq_false_iff.2 hs) m.symbolic⟩
  have hundefined : symbolically (Value.undefined m.active bits) m =
      (.ok v, { m with symbolic := s }) := by
    unfold symbolically
    rw [hv]
  unfold readMemory
  rw [apply_check_ok hw, apply_check_ok (address.checkOperand _), apply_get_bind, address.known,
    Option.isNone_some, Bool.and_false, if_neg Bool.false_ne_true]
  refine ⟨_, s, apply_bind_ok hundefined _, ?_⟩
  exact Value.only_eq_some.2 ⟨hc, rfl⟩

theorem writeMemory_known (hw : checkAccessWidth data.value.bits = .ok ())
    (hc : m.active.contains .concrete = true) :
    writeMemory address.value data.value m =
      (.ok (), m.store address.number data.value.bits data.number) := by
  unfold writeMemory
  rw [apply_check_ok hw, apply_check_ok (address.checkOperand _),
    apply_check_ok (data.checkOperand _), apply_get_bind, if_pos hc, address.known, data.known]
  rfl

end Machine

namespace Access

/-- What an access does on a bus itself; a load gives the word there. -/
def direct : Access → StateM Bus (Option Nat)
  | load address bits _ => do return some ((← get).load address.number bits)
  | store address data _ => do
    modify (·.store address.number data.value.bits data.number)
    return none

/-- What it does on a machine; a load gives the number that it finds. -/
def perform : Access → MachineM σ (Option Nat)
  | load address bits _ => do return (← Machine.readMemory address.value bits).concrete
  | store address data _ => do
    Machine.writeMemory address.value data.value
    return none

/-- **An access on a machine is one on the bus that a commit would leave.** It puts bytes in memory,
those of a store or none, and a load may ask for a new variable. -/
theorem perform_eq (x : Access) {m : Machine σ} (hc : m.active.contains .concrete = true) :
    ∃ writes s, x.perform m = (.ok (x.direct m.memory).1,
        { m.putBytes writes with symbolic := s }) ∧
      m.memory.setBytes writes = (x.direct m.memory).2 := by
  cases x with
  | load address bits hw =>
    obtain ⟨v, s, hread, hv⟩ := Machine.readMemory_known hw hc address
    refine ⟨[], s, ?_, rfl⟩
    refine (apply_bind_ok hread _).trans ?_
    rw [hv, Machine.load_eq_memory hw, Machine.putBytes_nil]
    rfl
  | store address data hw =>
    refine ⟨Bus.writes address.number (data.value.bits / 8) data.number, m.symbolic, ?_, ?_⟩
    · refine (apply_bind_ok (Machine.writeMemory_known hw hc) _).trans ?_
      rw [Machine.store_eq_putBytes hw]
      obtain ⟨active, symbolic, registers, bus, staged⟩ := m
      cases staged <;> rfl
    · show _ = m.memory.store address.number data.value.bits data.number
      rw [← Machine.memory_store hw, Machine.store_eq_putBytes hw, Machine.memory_putBytes]

/-- **Accesses on a machine are those on the bus that a commit would leave.** By induction on the
accesses: the rest starts on the machine with the bytes of the first one. -/
theorem mapM_perform (xs : List Access) {m : Machine σ}
    (hc : m.active.contains .concrete = true) :
    ∃ writes s, xs.mapM perform m = (.ok (xs.mapM direct m.memory).1,
        { m.putBytes writes with symbolic := s }) ∧
      m.memory.setBytes writes = (xs.mapM direct m.memory).2 := by
  induction xs generalizing m with
  | nil =>
    refine ⟨[], m.symbolic, ?_, rfl⟩
    rw [Machine.putBytes_nil]
    rfl
  | cons x xs ih =>
    obtain ⟨ws, s, hx, hbus⟩ := x.perform_eq hc
    have hc' : ({ m.putBytes ws with symbolic := s } : Machine σ).active.contains .concrete =
        true := by
      show (m.putBytes ws).active.contains .concrete = true
      rw [Machine.active_putBytes]
      exact hc
    have hmemory : ({ m.putBytes ws with symbolic := s } : Machine σ).memory =
        (x.direct m.memory).2 := (m.memory_putBytes ws).trans hbus
    obtain ⟨vs, s', hxs, hbus'⟩ := ih hc'
    rw [hmemory] at hxs hbus'
    refine ⟨ws ++ vs, s', ?_, ?_⟩
    · rw [List.mapM_cons, apply_bind_ok hx, apply_bind_ok hxs, Machine.putBytes_setSymbolic,
        List.mapM_cons, ← Machine.putBytes_append]
      rfl
    · rw [Bus.setBytes_append, hbus, hbus', List.mapM_cons]
      rfl

/-- What accesses give does not depend on where the stores before them are. -/
theorem fst_mapM_perform (xs : List Access) {m : Machine σ}
    (hc : m.active.contains .concrete = true) :
    (xs.mapM perform m).1 = .ok (xs.mapM direct m.memory).1 := by
  obtain ⟨writes, s, h, -⟩ := mapM_perform xs hc
  rw [h]

/-- **Staging is transparent.** Accesses after `Machine.stageStores` give what they give on the bus
itself, and so does any load after them, while the bus waits. A commit leaves the bus of the direct
accesses. A discard leaves the machine as it was but for its symbolic state, and whatever is
accessed afterwards is what it was. -/
theorem mapM_perform_stageStores (m : Machine σ) (hc : m.active.contains .concrete = true)
    (xs : List Access) :
    ∃ m' : Machine σ, xs.mapM perform m.stageStores = (.ok (xs.mapM direct m.bus).1, m') ∧
      m'.bus = m.bus ∧
      (∀ address bits, checkAccessWidth bits = .ok () →
        m'.load address bits = (xs.mapM direct m.bus).2.load address bits) ∧
      m'.commitStores.bus = (xs.mapM direct m.bus).2 ∧
      (∃ s, m'.discardStores = { m.discardStores with symbolic := s }) ∧
      ∀ ys : List Access, (ys.mapM perform m'.discardStores).1 = .ok (ys.mapM direct m.bus).1 := by
  have hactive : m.stageStores.active.contains .concrete = true := hc
  obtain ⟨writes, s, hrun, hbus⟩ := mapM_perform xs hactive
  have hmemory : ({ m.stageStores.putBytes writes with symbolic := s } : Machine σ).memory =
      (xs.mapM direct m.bus).2 := (m.stageStores.memory_putBytes writes).trans hbus
  refine ⟨_, hrun, rfl, fun address bits hw => ?_, hmemory, ⟨s, rfl⟩, fun ys => ?_⟩
  · rw [Machine.load_eq_memory hw, hmemory]
  · exact fst_mapM_perform ys hc

/-- Accesses that overlap and wrap: a store over the end of memory, one over its last bytes, and a
load across the end. -/
def wrapping : List Access :=
  let number (bits n : Nat) : Known := ⟨{ bits, concrete := some n }, n, rfl⟩
  [.store (number 32 0xfffffffe) (number 32 0x44332211) rfl,
    .store (number 32 0) (number 16 0x6655) rfl,
    .load (number 32 0xffffffff) 24 rfl]

theorem mapM_perform_wrapping :
    ∃ m : Machine Unit, wrapping.mapM perform (Machine.start .empty {}).stageStores =
        (.ok [none, none, some 0x665522], m) ∧
      m.bus = .empty ∧
      m.commitStores.bus.load 0xfffffffe 32 = 0x66552211 := by
  obtain ⟨m, hrun, hbus, -, hcommit, -⟩ :=
    mapM_perform_stageStores (Machine.start .empty ({} : Symbolic Unit)) rfl wrapping
  refine ⟨m, ?_, hbus, ?_⟩
  · have hwords : (wrapping.mapM direct Bus.empty).1 = [none, none, some 0x665522] := by
      decide +kernel
    rw [hrun, ← hwords]
    rfl
  · rw [hcommit]
    decide +kernel

end Access
end Lockstep
