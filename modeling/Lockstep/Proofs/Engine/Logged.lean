/-
# What a store does

After the trigger a store whose checks are passed does two things: it puts the
bytes that are known in memory, and it makes cells of all bytes for the log.
Only the cells can fail it, and then their bytes are in memory already. Beside
that events are noted, and nothing else changes.

Key definitions: `Engine.logged`, `Engine.storing`.
Key theorems: `Engine.writeMemory_eq_storing`, `Engine.writeMemory_checks`,
`Engine.registers_writeMemory`.
-/
import Lockstep.Proofs.Engine.Staging

namespace Lockstep
namespace Engine

variable {σ : Type} {e : Engine σ} {address data : Value}

/-- What a store makes of the log. Without a term for the address it leaves it, and with one it
puts a cell for each byte on top, unless one of the cells is refused. -/
def logged (e : Engine σ) (address data : Value) : Except Fault MemoryLog :=
  if e.machine.active.contains .symbolic then
    match address.ensureTerm e.machine.active with
    | .error _ => pure e.log
    | .ok base => do
      let word := (data.ensure e.machine.active .symbolic).toOption.getD data
      let cells ← cellsOf e.machine.active base word
      pure (cells.foldl MemoryLog.write e.log)
  else pure e.log

/-- The engine with the bytes of a store in memory, another log and other events. -/
def storing (e : Engine σ) (address data : Value) (log : MemoryLog) (journal : Journal) :
    Engine σ :=
  { e with
    machine := { e.machine.putBytes (Value.storeWrites e.machine.active address data) with
      symbolic := { e.machine.symbolic with journal } }
    log }

@[simp] theorem log_storing (log : MemoryLog) (journal : Journal) :
    (e.storing address data log journal).log = log := rfl

@[simp] theorem registers_storing (log : MemoryLog) (journal : Journal) :
    (e.storing address data log journal).machine.registers = e.machine.registers :=
  Machine.registers_putBytes _ _

@[simp] theorem active_storing (log : MemoryLog) (journal : Journal) :
    (e.storing address data log journal).machine.active = e.machine.active :=
  Machine.active_putBytes _ _

@[simp] theorem staged_storing (hstaged : e.machine.staged = none) (log : MemoryLog)
    (journal : Journal) : (e.storing address data log journal).machine.staged = none := by
  unfold storing Machine.putBytes
  rw [hstaged]

theorem bus_storing (address data : Value) (hstaged : e.machine.staged = none) (log : MemoryLog)
    (journal : Journal) :
    (e.storing address data log journal).machine.bus =
      e.machine.bus.setBytes (Value.storeWrites e.machine.active address data) := by
  unfold storing Machine.putBytes
  rw [hstaged]

/-- **A store after the trigger** whose checks are passed puts its known bytes in memory, whatever
becomes of the log; the log is the one with its cells, or the old one if they are refused. -/
theorem writeMemory_eq_storing (htrig : e.governor.isTriggered = true)
    (hw : checkAccessWidth data.bits = .ok ()) (ha : address.checkOperand "address" = .ok ())
    (hd : data.checkOperand "data" = .ok ()) :
    ∃ journal, writeMemory address data e =
      match e.logged address data with
      | .ok log => (.ok (), e.storing address data log journal)
      | .error f => (.error f, e.storing address data e.log journal) := by
  unfold writeMemory
  rw [apply_get_bind, htrig, Bool.not_true, if_neg Bool.false_ne_true, apply_check_ok hw,
    apply_check_ok ha, apply_check_ok hd]
  -- the log comes last, and what was done before it does not show in the log
  generalize hact : (if e.machine.active.contains .symbolic then _ else pure () :
    EngineM σ Unit) = log
  have hlog (journal : Journal) : ∃ journal', log (e.storing address data e.log journal) =
      match e.logged address data with
      | .ok log => (.ok (), e.storing address data log journal')
      | .error f => (.error f, e.storing address data e.log journal') := by
    subst hact
    unfold logged
    by_cases hs : e.machine.active.contains .symbolic = true
    · rw [if_pos hs, if_pos hs]
      cases address.ensureTerm e.machine.active with
      | error fault => exact ⟨_, rfl⟩
      | ok base =>
        dsimp only
        cases cellsOf e.machine.active base
            ((data.ensure e.machine.active .symbolic).toOption.getD data) with
        | error fault => exact ⟨journal, apply_check_error rfl _ _⟩
        | ok cells => exact ⟨journal, apply_check_ok rfl _ _⟩
    · rw [if_neg hs, if_neg hs]
      exact ⟨journal, rfl⟩
  by_cases hc : e.machine.active.contains .concrete = true
  · obtain ⟨r, hstored⟩ := storeConcrete_eq_putBytes (σ := σ) hw ha hd
    have hbytes : ({ e with
        machine := e.machine.putBytes (Value.storeWrites .concreteOnly address data) } :
          Engine σ) = e.storing address data e.log e.machine.symbolic.journal := by
      rw [storeWrites_concreteOnly hc]
      unfold storing
      rw [← Machine.symbolic_putBytes e.machine (Value.storeWrites e.machine.active address data)]
    rw [if_pos hc, apply_bind_ok ((hstored e).trans (congrArg _ hbytes))]
    cases r with
    | ok _ => exact hlog _
    | error fault => exact hlog _
  · have hnone : Value.storeWrites e.machine.active address data = [] :=
      Value.storeWrites_of_inactive (Bool.eq_false_iff.2 hc) address data
    have hsame : e = e.storing address data e.log e.machine.symbolic.journal := by
      unfold storing
      rw [hnone, Machine.putBytes_nil]
    have hlast := hlog e.machine.symbolic.journal
    rw [← hsame] at hlast
    rw [if_neg hc]
    exact hlast

/-- **The checks in front of a store.** After the trigger it is refused and changes nothing, or it
has a width of accesses, and of its address and its data something is known. -/
theorem writeMemory_checks (htrig : e.governor.isTriggered = true) (address data : Value) :
    (∃ f, writeMemory address data e = (.error f, e)) ∨
      checkAccessWidth data.bits = .ok () ∧ address.checkOperand "address" = .ok () ∧
        data.checkOperand "data" = .ok () := by
  unfold writeMemory
  rw [apply_get_bind, htrig, Bool.not_true, if_neg Bool.false_ne_true]
  cases hw : checkAccessWidth data.bits with
  | error f => exact .inl ⟨f, apply_check_error rfl _ _⟩
  | ok _ =>
    rw [apply_check_ok rfl]
    cases ha : address.checkOperand "address" with
    | error f => exact .inl ⟨f, apply_check_error rfl _ _⟩
    | ok _ =>
      rw [apply_check_ok rfl]
      cases hd : data.checkOperand "data" with
      | error f => exact .inl ⟨f, apply_check_error rfl _ _⟩
      | ok _ => exact .inr ⟨rfl, rfl, rfl⟩

/-- **A store leaves the registers**, whether it succeeds or fails. -/
theorem registers_writeMemory (address data : Value) (e : Engine σ) :
    (writeMemory address data e).2.machine.registers = e.machine.registers := by
  by_cases htrig : e.governor.isTriggered = true
  · rcases writeMemory_checks htrig address data with ⟨f, hrefused⟩ | ⟨hw, ha, hd⟩
    · rw [hrefused]
    · obtain ⟨journal, hstore⟩ := writeMemory_eq_storing htrig hw ha hd
      rw [hstore]
      cases e.logged address data with
      | ok log => exact registers_storing log journal
      | error f => exact registers_storing e.log journal
  · rw [Bool.not_eq_true] at htrig
    obtain ⟨r, writes, -, hwrite⟩ :=
      Machine.writeMemory_putBytes (σ := σ) address data e.machine.active
    unfold writeMemory
    rw [apply_get_bind, htrig, Bool.not_false, if_pos rfl]
    unfold onMachine
    rw [hwrite e.machine rfl]
    exact Machine.registers_putBytes _ _

end Engine
end Lockstep
