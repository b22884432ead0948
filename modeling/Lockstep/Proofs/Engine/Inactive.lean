/-
# What a step leaves of inactive domains

A step writes registers in the active domains only. It touches the log, the
numbering of variables and the solver only with the symbolic domain, and the
bus only with the concrete one. So what belongs to an inactive domain is after
a step what it was before, be the engine idle or triggered, and whether the
step succeeds or fails.

Key definitions: `Value.SamePart`, `Engine.Untouched`, `Engine.Spares`.
Key theorems: `Engine.Effect.untouched`, `Engine.run_spares`, `Engine.step_untouched`.
-/
import Lockstep.Proofs.Engine.Effects

namespace Lockstep

/-! ### Parts of registers -/

/-- Does the second value know the same as the first in a domain? -/
def Value.SamePart (v u : Value) : Domain → Prop
  | .concrete => u.concrete = v.concrete
  | .interval => u.interval = v.interval
  | .symbolic => u.symbolic = v.symbolic

theorem Value.SamePart.refl (v : Value) (d : Domain) : v.SamePart v d := by cases d <;> rfl

theorem Value.SamePart.trans {v u w : Value} {d : Domain} (h : v.SamePart u d)
    (h' : u.SamePart w d) : v.SamePart w d := by
  cases d <;> exact Eq.trans h' h

/-- Parts that are taken over are those of the taken domains. -/
theorem Value.samePart_takeParts (v u : Value) {taken : DomainSet} {d : Domain}
    (hd : taken.contains d = false) : v.SamePart (v.takeParts u taken) d := by
  cases d <;> simp [SamePart, takeParts, hd]

namespace Engine

variable {σ α : Type} {m : DomainSet} {e e' e'' : Engine σ}

/-! ### What belongs to inactive domains -/

/-- Is what belongs to the inactive domains of the first engine the same in the second one? Staged
stores belong to the concrete domain. -/
structure Untouched (e e' : Engine σ) : Prop where
  active : e'.machine.active = e.machine.active
  registers : ∀ d, e.machine.active.contains d = false → ∀ r,
    (e.machine.registers.get r).SamePart (e'.machine.registers.get r) d
  symbolic : e.machine.active.contains .symbolic = false →
    e'.log = e.log ∧ e'.machine.symbolic.nextVariable = e.machine.symbolic.nextVariable ∧
      e'.machine.symbolic.solver = e.machine.symbolic.solver
  memory : e.machine.active.contains .concrete = false →
    e'.machine.bus = e.machine.bus ∧ e'.machine.staged = e.machine.staged

theorem Untouched.refl (e : Engine σ) : e.Untouched e :=
  ⟨rfl, fun d _ _ => .refl _ d, fun _ => ⟨rfl, rfl, rfl⟩, fun _ => ⟨rfl, rfl⟩⟩

theorem Untouched.trans (h : e.Untouched e') (h' : e'.Untouched e'') : e.Untouched e'' := by
  obtain ⟨hactive, hregisters, hsymbolic, hmemory⟩ := h
  obtain ⟨hactive', hregisters', hsymbolic', hmemory'⟩ := h'
  rw [hactive] at hactive' hregisters' hsymbolic' hmemory'
  refine ⟨hactive', fun d hd r => (hregisters d hd r).trans (hregisters' d hd r), ?_, ?_⟩
  · intro hs
    obtain ⟨hlog, hnext, hsolver⟩ := hsymbolic hs
    obtain ⟨hlog', hnext', hsolver'⟩ := hsymbolic' hs
    exact ⟨hlog'.trans hlog, hnext'.trans hnext, hsolver'.trans hsolver⟩
  · intro hc
    obtain ⟨hbus, hstaged⟩ := hmemory hc
    obtain ⟨hbus', hstaged'⟩ := hmemory' hc
    exact ⟨hbus'.trans hbus, hstaged'.trans hstaged⟩

/-- A computation that, started with the given domains active, touches nothing that belongs to
the others. -/
def Spares (m : DomainSet) (act : EngineM σ α) : Prop :=
  ∀ e : Engine σ, e.machine.active = m → e.Untouched (act e).2

variable [Solver σ]

/-- **Every effect** belongs to a domain that is active. -/
theorem Effect.untouched {w w' : World (Engine σ)} (h : Effect w w') :
    w.state.Untouched w'.state := by
  cases h with
  | @note V e j =>
    exact ⟨rfl, fun d _ _ => .refl _ d, fun _ => ⟨rfl, rfl, rfl⟩, fun _ => ⟨rfl, rfl⟩⟩
  | @symbolic V V' e s hs h =>
    refine ⟨rfl, fun d _ _ => .refl _ d, fun hnone => ?_, fun _ => ⟨rfl, rfl⟩⟩
    rw [hs] at hnone
    cases hnone
  | @write V e r v hv =>
    refine ⟨rfl, fun d hd q => ?_, fun _ => ⟨rfl, rfl, rfl⟩, fun _ => ⟨rfl, rfl⟩⟩
    rw [get_written]
    by_cases hq : q = r
    · rw [if_pos hq, hq]
      exact Value.samePart_takeParts _ _ hd
    · rw [if_neg hq]
      exact .refl _ d
  | @store V e writes hc =>
    refine ⟨Machine.active_putBytes _ _, fun d _ r => ?_, fun _ => ⟨rfl, ?_, ?_⟩, fun hnone => ?_⟩
    · rw [Machine.registers_putBytes]
      exact .refl _ d
    · rw [Machine.symbolic_putBytes]
    · rw [Machine.symbolic_putBytes]
    · rw [hc] at hnone
      cases hnone
  | @log V e cells hs hcells =>
    refine ⟨rfl, fun d _ _ => .refl _ d, fun hnone => ?_, fun _ => ⟨rfl, rfl⟩⟩
    rw [hs] at hnone
    cases hnone
  | @trap V e vector =>
    exact ⟨rfl, fun d _ _ => .refl _ d, fun _ => ⟨rfl, rfl, rfl⟩, fun _ => ⟨rfl, rfl⟩⟩

theorem untouched_of_effects {w w' : World (Engine σ)} (h : Relation.ReflTransGen Effect w w') :
    w.state.Untouched w'.state := by
  induction h with
  | refl => exact .refl _
  | tail _ h ih => exact ih.trans h.untouched

theorem run_spares (i : Instruction) : Spares m (run i : EngineM σ Unit) := by
  intro e _
  obtain ⟨V, heffects⟩ := run_effects i e
  exact untouched_of_effects heffects

/-- **A step leaves what belongs to inactive domains**, whether it succeeds or fails: in each of
them every register, without the symbolic domain also the log, the numbering of variables and
the solver with what it counts, and without the concrete domain also the bus. -/
theorem step_untouched (e : Engine σ) (i : Instruction) :
    let m := e.machine.active
    let e' := (step i e).2
    (∀ d, m.contains d = false → ∀ r,
      (e.machine.registers.get r).SamePart (e'.machine.registers.get r) d) ∧
    (m.contains .symbolic = false →
      e'.log = e.log ∧ e'.machine.symbolic.nextVariable = e.machine.symbolic.nextVariable ∧
        e'.machine.symbolic.solver = e.machine.symbolic.solver ∧
        e'.machine.symbolic.usage? = e.machine.symbolic.usage?) ∧
    (m.contains .concrete = false → e'.machine.bus = e.machine.bus) := by
  obtain ⟨-, hregisters, hsymbolic, hmemory⟩ := run_spares i e.beginWrites rfl
  have husage {s s' : Symbolic σ} (h : s'.solver = s.solver) : s'.usage? = s.usage? := by
    rw [Symbolic.usage?, h]
    rfl
  unfold step
  rcases hrun : run i e.beginWrites with ⟨fault | _, e'⟩
  · -- the stores of a failed step are forgotten, and of its cells there are none
    rw [hrun] at hregisters hsymbolic hmemory
    refine ⟨hregisters, fun hs => ?_, fun hc => (hmemory hc).1⟩
    obtain ⟨hlog, hnext, hsolver⟩ := hsymbolic hs
    have htruncate : e'.log.truncate e.log.size = e.log :=
      truncate_of_append (show e'.log.cells = [] ++ e.log.cells from congrArg MemoryLog.cells hlog)
    exact ⟨htruncate, hnext, hsolver, husage hsolver⟩
  · -- the stores of a step go to the bus, and without the concrete domain there are none
    rw [hrun] at hregisters hsymbolic hmemory
    refine ⟨hregisters, fun hs => ?_, fun hc => ?_⟩
    · obtain ⟨hlog, hnext, hsolver⟩ := hsymbolic hs
      exact ⟨hlog, hnext, hsolver, husage hsolver⟩
    · obtain ⟨hbus, hstaged⟩ := hmemory hc
      show e'.machine.bus.setBytes (e'.machine.staged.getD []).reverse = e.machine.bus
      rw [hstaged, hbus]
      rfl

end Engine
end Lockstep
