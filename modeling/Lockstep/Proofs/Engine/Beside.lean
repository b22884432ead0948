/-
# Beside the concrete domain

While the concrete domain alone is active, statements change numbers and
bytes on the bus. Whether they succeed or fail, the log stays, and so do the
range and the term of every register, be the engine idle or at an instruction
that is like a trap.

Key definitions: `RegisterFile.SameBeside`, `Engine.SameBeside`.
Key theorems: `Engine.Untouched.sameBeside`, `Engine.step_beside`, `Engine.execute_idle_beside`,
`Engine.execute_trap_beside`.
-/
import Lockstep.Proofs.Engine.Execute
import Lockstep.Proofs.Engine.Inactive

namespace Lockstep

/-! ### What is beside -/

/-- Do all registers have the same range and the same term? -/
def RegisterFile.SameBeside (f g : RegisterFile) : Prop :=
  ∀ r, (g.get r).interval = (f.get r).interval ∧ (g.get r).symbolic = (f.get r).symbolic

theorem RegisterFile.SameBeside.refl (f : RegisterFile) : f.SameBeside f := fun _ => ⟨rfl, rfl⟩

theorem RegisterFile.SameBeside.trans {f g h : RegisterFile} (hfg : f.SameBeside g)
    (hgh : g.SameBeside h) : f.SameBeside h :=
  fun r => ⟨(hgh r).1.trans (hfg r).1, (hgh r).2.trans (hfg r).2⟩

/-- A register whose number alone is set has the same range and the same term. -/
theorem RegisterFile.sameBeside_set (f : RegisterFile) (r : Register) (v : Value) :
    f.SameBeside (f.set r ((f.get r).takeParts v .concreteOnly)) := by
  intro s
  rw [get_set]
  by_cases hs : s = r
  · rw [if_pos hs, hs]
    exact ⟨rfl, rfl⟩
  · rw [if_neg hs]
    exact ⟨rfl, rfl⟩

namespace Engine

variable {σ : Type} {V : Widths} {e e' : Engine σ}

/-- Is the log the same, and what is known of registers beside their numbers? -/
structure SameBeside (e e' : Engine σ) : Prop where
  log : e'.log = e.log
  registers : e.machine.registers.SameBeside e'.machine.registers

theorem SameBeside.refl (e : Engine σ) : e.SameBeside e := ⟨rfl, .refl _⟩

theorem SameBeside.trans {e'' : Engine σ} (h : e.SameBeside e') (h' : e'.SameBeside e'') :
    e.SameBeside e'' :=
  ⟨h'.log.trans h.log, h.registers.trans h'.registers⟩

theorem Alike.sameBeside (h : Alike e e') : e.SameBeside e' := by
  refine ⟨h.log, ?_⟩
  rw [h.registers]
  exact .refl _

/-- What belongs to the inactive domains is what is beside the concrete one. -/
theorem Untouched.sameBeside (h : e.Untouched e') (hactive : e.machine.active = .concreteOnly) :
    e.SameBeside e' := by
  obtain ⟨-, hregisters, hsymbolic, -⟩ := h
  rw [hactive] at hregisters hsymbolic
  exact ⟨(hsymbolic rfl).1, fun r => ⟨hregisters .interval rfl r, hregisters .symbolic rfl r⟩⟩

/-! ### Statements and instructions -/

variable [Solver σ]

/-- **A step** in the concrete domain alone: not even for its time cells are added. -/
theorem step_beside (hactive : e.machine.active = .concreteOnly) (i : Instruction) :
    (step i e).2.governor = e.governor ∧ e.SameBeside (step i e).2 := by
  obtain ⟨V, heffects⟩ := run_effects i e.beginWrites
  have hgovernor := governor_of_effects heffects
  obtain ⟨hlog, hregisters⟩ := (untouched_of_effects heffects).sameBeside hactive
  unfold step
  rcases hrun : run i e.beginWrites with ⟨fault | _, e'⟩
  · rw [hrun] at hgovernor hlog hregisters
    have htruncate : e'.log.truncate e.log.size = e.log :=
      truncate_of_append (show e'.log.cells = [] ++ e.log.cells from congrArg MemoryLog.cells hlog)
    exact ⟨hgovernor, htruncate, hregisters⟩
  · rw [hrun] at hgovernor hlog hregisters
    exact ⟨hgovernor, hlog, hregisters⟩

/-- **An idle engine** changes nothing beside the concrete domain. -/
theorem execute_idle_beside (h : e.Settled V) (hidle : e.governor.isTriggered = false)
    (i : Instruction) : e.SameBeside (execute i e).2 := by
  have hact : execute i e = step i e := by
    unfold execute
    rw [apply_bind_ok (apply_get e), hidle]
    rfl
  rw [hact]
  exact (step_beside (h.idle hidle) i).2

/-- **An instruction that is like a trap** changes nothing beside the concrete domain. -/
theorem execute_trap_beside (h : e.Settled V) (htrig : e.governor.isTriggered = true)
    {i : Instruction} (htrap : i.kind.isTrap = true) : e.SameBeside (execute i e).2 := by
  obtain ⟨e₁, hbefore, -, htrig₁, -, hlocated, -, -⟩ := beforeInstruction_entered h htrig i
  rw [if_pos htrap] at hlocated
  have hbefore₁ : e.SameBeside e₁ := by
    obtain ⟨v, -, halike⟩ := hlocated
    have hset : e.SameBeside ((e.under .concreteOnly e₁.governor).written .eip v) :=
      ⟨rfl, RegisterFile.sameBeside_set e.machine.registers .eip v⟩
    exact hset.trans halike.sameBeside
  obtain ⟨hg₂, hstep⟩ := step_beside hlocated.active i
  obtain ⟨e₃, hact, halike⟩ := execute_eq htrig hbefore rfl (hg₂ ▸ htrig₁)
  have hafter : (step i e₁).2.SameBeside e₃ := ⟨halike.log, halike.sameBeside.registers⟩
  rw [hact]
  exact (hbefore₁.trans hstep).trans hafter

end Engine
end Lockstep
