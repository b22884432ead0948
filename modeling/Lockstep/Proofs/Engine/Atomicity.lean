/-
# A step has all of its stores or none

A step that fails leaves the memory as it was: the bus, the log, the active
domains, and no store is staged, whatever statement failed and however deep in
an expression. A step that succeeds has put its bytes on the bus in the order
of its statements, and it has only added cells to the log; it ends where a run
ends whose stores go to the bus at once. At every point of a step expressions
see the bus with the stores so far.

Key definitions: `Engine.MemoryKept`, `Engine.MemoryWritten`, `Engine.Sees`.
Key theorems: `Engine.step_failed`, `Engine.step_succeeded`, `Engine.performAll_sees`,
`Engine.step_atomic`.
-/
import Lockstep.Proofs.Engine.Staging

namespace Lockstep
namespace Engine

variable {σ : Type} {e e' : Engine σ}

/-- The memory is as before, and nothing is staged. -/
structure MemoryKept (e e' : Engine σ) : Prop where
  bus : e'.machine.bus = e.machine.bus
  log : e'.log = e.log
  active : e'.machine.active = e.machine.active
  staged : e'.machine.staged = none

/-- The bus has the given writes in order, the log has new cells, and nothing is staged. -/
structure MemoryWritten (e : Engine σ) (writes : List (Nat × UInt8)) (e' : Engine σ) : Prop where
  bus : e'.machine.bus = e.machine.bus.setBytes writes
  log : ∃ new, e'.log.cells = new ++ e.log.cells
  active : e'.machine.active = e.machine.active
  staged : e'.machine.staged = none

theorem commitWrites_beginWrites (hstaged : e.machine.staged = none) :
    e.beginWrites.commitWrites = e := by
  obtain ⟨config, ⟨active, symbolic, registers, bus, staged⟩, log, governor, trap, report⟩ := e
  obtain rfl : staged = none := hstaged
  rfl

/-- What succeeds from the begin of a step has its writes staged, for the bus that waited. -/
theorem Defers.committed {α : Type} {act : EngineM σ α} {writes : List (Nat × UInt8)} {a : α}
    (h : Defers act e.beginWrites writes) (hact : act e.beginWrites = (.ok a, e')) :
    e'.machine.bus.setBytes (e'.machine.staged.getD []).reverse =
      e.machine.bus.setBytes writes := by
  obtain ⟨hbus, -, -, hstaged, -⟩ := h
  rw [hact] at hbus hstaged
  have hstored : e'.machine.staged = some (writes.reverse ++ []) := hstaged a rfl
  rw [hbus, hstored, Option.getD_some, List.append_nil, List.reverse_reverse]
  rfl

variable [Solver σ]

/-- **What expressions see.** Whatever the symbolic state is, a load returns the bytes of the
given bus, an evaluation changes nothing but the symbolic state, and it gives what it gives on
the engine with this bus and nothing staged. -/
structure Sees (e : Engine σ) (bus : Bus) : Prop where
  loads : ∀ s address bits,
    (e.withSymbolic s).machine.load address bits = bus.loadBytes address (bits / 8)
  frame : ∀ x s, ∃ s', (evaluate x (e.withSymbolic s)).2 = e.withSymbolic s'
  values : ∀ x s, evaluate x ((e.withSymbolic s).withMemory bus none) =
    ((evaluate x (e.withSymbolic s)).1, (evaluate x (e.withSymbolic s)).2.withMemory bus none)

theorem SameBytes.sees {bus : Bus} (h : e.SameBytes bus none) : e.Sees bus := by
  refine ⟨fun s address bits => ?_, fun x s => ?_, fun x s => ?_⟩
  · have hload : (e.withMemory bus none).machine.load address bits =
        bus.loadBytes address (bits / 8) := rfl
    rw [← hload, h.load]
    rfl
  · exact (evaluate_observes x).frame (e.withSymbolic s)
  · exact (evaluate_observes x).memory (e.withSymbolic s) bus none h

variable {i : Instruction}

theorem run_beginWrites (hstaged : e.machine.staged = none) (i : Instruction) :
    Defers (run i) e.beginWrites (e.writesOf i.statements) ∧
      run i e = ((run i e.beginWrites).1, (run i e.beginWrites).2.commitWrites) := by
  have hdefers := run_defers (e := e.beginWrites) i rfl
  rw [commitWrites_beginWrites hstaged] at hdefers
  have hdirect := hdefers.direct
  rw [commitWrites_beginWrites hstaged] at hdirect
  exact ⟨hdefers, hdirect⟩

/-- **A step that fails** leaves the memory. Where stores go to the bus at once the run has the
same fault. -/
theorem step_failed (hstaged : e.machine.staged = none) {f : Fault}
    (h : step i e = (.error f, e')) : e.MemoryKept e' ∧ (run i e).1 = .error f := by
  obtain ⟨⟨hbus, hactive, ⟨new, hcells⟩, -, -⟩, hdirect⟩ := run_beginWrites hstaged i
  unfold step at h
  rcases hrun : run i e.beginWrites with ⟨fault | _, e₁⟩
  · rw [hrun] at h hbus hactive hcells hdirect
    obtain ⟨hfault, rfl⟩ := Prod.mk.inj h
    refine ⟨⟨hbus, truncate_of_append hcells, hactive, rfl⟩, ?_⟩
    rw [hdirect]
    exact hfault
  · rw [hrun] at h
    cases h

/-- **A step that succeeds** has its stores on the bus, as if each had gone there at once. -/
theorem step_succeeded (hstaged : e.machine.staged = none) (h : step i e = (.ok (), e')) :
    e.MemoryWritten (e.writesOf i.statements) e' ∧ run i e = (.ok (), e') := by
  obtain ⟨hdefers, hdirect⟩ := run_beginWrites hstaged i
  have hactive := hdefers.active
  have hcells := hdefers.cells
  unfold step at h
  rcases hrun : run i e.beginWrites with ⟨fault | _, e₁⟩
  · rw [hrun] at h
    cases h
  · have hbus := hdefers.committed hrun
    rw [hrun] at h hactive hcells hdirect
    obtain ⟨-, rfl⟩ := Prod.mk.inj h
    exact ⟨⟨hbus, hcells, hactive, rfl⟩, hdirect⟩

/-- **In the midst of a step** expressions see the bus with the stores so far. -/
theorem performAll_sees (hstaged : e.machine.staged = none) {before : List Statement}
    {e₁ : Engine σ} (h : before.forM perform e.beginWrites = (.ok (), e₁)) :
    e₁.Sees (e.machine.bus.setBytes (e.writesOf before)) := by
  have hdefers := performAll_defers (e := e.beginWrites) before rfl
  rw [commitWrites_beginWrites hstaged] at hdefers
  have hsame := sameBytes_commitStores e₁
  rw [hdefers.committed h] at hsame
  exact hsame.sees

/-- **A step has all of its stores or none.** It starts with nothing staged. If it fails, the
bus, the log and the active domains are as they were; if it succeeds, the bus has the bytes of
its statements in order and the log has new cells on top of the old ones. Either way nothing is
staged at its end, its result is that of the run whose stores go to the bus at once, and behind
any of its statements expressions see the bus as if the stores so far were on it. -/
theorem step_atomic (hstaged : e.machine.staged = none) (i : Instruction) :
    (∀ f e', step i e = (.error f, e') → e.MemoryKept e' ∧ (run i e).1 = .error f) ∧
    (∀ e', step i e = (.ok (), e') →
      e.MemoryWritten (e.writesOf i.statements) e' ∧ run i e = (.ok (), e')) ∧
    ∀ before after e₁, i.statements = before ++ after →
      before.forM perform e.beginWrites = (.ok (), e₁) →
      e₁.Sees (e.machine.bus.setBytes (e.writesOf before)) := by
  refine ⟨?_, ?_, ?_⟩
  · exact fun f e' h => step_failed hstaged h
  · exact fun e' h => step_succeeded hstaged h
  · exact fun before after e₁ _ h => performAll_sees hstaged h

/-- After the trigger a byte is stored and loaded again; where a jump fails behind the first
store, the store is gone. -/
theorem step_atomic_store :
    let e : Engine Backend := (trigger 0 (Engine.start .empty {} (some (builtIn {})))).2
    let store : Statement := .store 8 (.const 64 32) (.const 17 8)
    let copy : Instruction :=
      ⟨0, 2, .other, "", [store, .store 8 (.const 65 32) (.memory 8 (.const 64 32))]⟩
    let fails : Instruction := ⟨0, 2, .other, "", [store, .jump (.const 1 16)]⟩
    e.MemoryWritten [(64, 17), (65, 17)] (step copy e).2 ∧
      (step copy e).2.log.size = 2 ∧
      (step fails e).1 = .error (.registerWidth 16 .eip) ∧ e.MemoryKept (step fails e).2 ∧
      (perform store e.beginWrites).2.Sees (e.machine.bus.setBytes [(64, 17)]) := by
  intro e store copy fails
  obtain ⟨-, hcopy, hsees⟩ := step_atomic (e := e) rfl copy
  obtain ⟨hfails, -, -⟩ := step_atomic (e := e) rfl fails
  have hwrites : e.writesOf copy.statements = [(64, 17), (65, 17)] := by decide +kernel
  have hok : (step copy e).1 = .ok () := by decide +kernel
  have hsize : (step copy e).2.log.size = 2 := by decide +kernel
  have hfault : (step fails e).1 = .error (.registerWidth 16 .eip) := by decide +kernel
  have hstore : (perform store e.beginWrites).1 = .ok () := by decide +kernel
  refine ⟨?_, hsize, hfault, ?_, ?_⟩
  · exact hwrites ▸ (hcopy _ (Prod.ext hok rfl)).1
  · exact (hfails _ _ (Prod.ext hfault rfl)).1
  · have hfirst : e.writesOf [store] = [(64, 17)] := by decide +kernel
    exact hfirst ▸ hsees [store] _ _ rfl (apply_bind_ok (Prod.ext hstore rfl) _)

end Engine
end Lockstep
