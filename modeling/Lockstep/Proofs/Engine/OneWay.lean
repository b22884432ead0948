/-
# What is switched off stays off

The trigger goes one way, and so does the switch that turns the symbolic domain
off. A triggered engine has the allowed domains active between calls, an idle
one the concrete domain alone. So without the symbolic domain among the allowed
ones a call works without it, from its first effect on: the log, the terms in
registers and the numbering of variables are as the call before left them, and
the solver is not asked again.

Key definitions: `Engine.Within`, `Engine.Governed`, `Engine.SameSymbolic`.
Key theorems: `Engine.Transition.sameSymbolic`, `Engine.governed_call`, `Engine.sameSymbolic_calls`,
`Engine.calls_one_way`.
-/
import Lockstep.Proofs.Engine.Calls
import Lockstep.Proofs.Engine.Inactive
import Lockstep.Proofs.Solver.Recorder

namespace Lockstep
namespace Engine

open Relation (ReflTransGen)

variable {σ : Type} [Solver σ]

/-! ### Active domains are allowed -/

omit [Solver σ] in
/-- Are the active domains among the allowed ones? -/
def Within (e : Engine σ) : Prop :=
  ∀ x, e.machine.active.contains x = true → e.governor.allowed.contains x = true

theorem Transition.within {w w' : World (Engine σ)} (h : Transition w w')
    (hw : w.state.Within) : w'.state.Within := by
  intro x hx
  have hallowed := (later_of_transitions (.single h)).allowed
  rw [hallowed]
  cases h with
  | effect h =>
    rw [active_of_effects (.single h)] at hx
    exact hw x hx
  | committed h | discarded h =>
    have hactive := active_of_effects h
    exact hw x (hactive ▸ hx)
  | activate hd => exact hd x hx
  | _ => exact hw x hx

omit [Solver σ] in
theorem within_chosen {e : Engine σ} (hc : e.governor.allowed.contains .concrete = true)
    (i : Instruction) : (e.chosen i).Within := by
  intro x hx
  change DomainSet.contains (if i.kind.isTrap then _ else _) x = true at hx
  split at hx
  · obtain rfl : x = .concrete := by simpa using hx
    exact Governor.concrete_checkComplexity hc _
  · exact hx

/-! ### Between calls -/

/-- Between calls the concrete domain is allowed, and the allowed domains are active once the
engine is triggered. -/
structure Governed (e : Engine σ) : Prop where
  concrete : e.governor.allowed.contains .concrete = true
  active : e.machine.active = if e.governor.isTriggered then e.governor.allowed else .concreteOnly

omit [Solver σ] in
theorem governed_start (bus : Bus) (config : Config) (solver : Option σ) :
    (start bus config solver).Governed :=
  ⟨by simp [start], rfl⟩

omit [Solver σ] in
theorem Governed.within {e : Engine σ} (h : e.Governed) : e.Within := by
  intro x hx
  rw [h.active] at hx
  split at hx
  · exact hx
  · obtain rfl : x = .concrete := by simpa using hx
    exact h.concrete

omit [Solver σ] in
/-- A call that leaves the active domains, the allowed ones and the phase. -/
theorem Governed.of_same {e e' : Engine σ} (h : e.Governed)
    (hactive : e'.machine.active = e.machine.active)
    (hallowed : e'.governor.allowed = e.governor.allowed)
    (hphase : e'.governor.isTriggered = e.governor.isTriggered) : e'.Governed := by
  refine ⟨by rw [hallowed, h.concrete], ?_⟩
  rw [hactive, h.active, hphase, hallowed]

theorem Governed.of_effects {V V' : Widths} {e e' : Engine σ} (h : e.Governed)
    (heffects : ReflTransGen Effect ⟨V, e⟩ ⟨V', e'⟩) : e'.Governed := by
  have hgovernor : e'.governor = e.governor := governor_of_effects heffects
  exact h.of_same (active_of_effects heffects) (by rw [hgovernor]) (by rw [hgovernor])

/-- A step leaves the active domains and the governor, whether it succeeds or fails. -/
theorem Governed.step {e : Engine σ} (h : e.Governed) (i : Instruction) :
    (step i e).2.Governed := by
  have hbegin : e.beginWrites.Governed := ⟨h.concrete, h.active⟩
  obtain ⟨V, heffects⟩ := run_effects i e.beginWrites
  have hrun := hbegin.of_effects heffects
  unfold Engine.step
  rcases hact : run i e.beginWrites with ⟨fault | _, e'⟩ <;>
  · rw [hact] at hrun
    exact ⟨hrun.concrete, hrun.active⟩

theorem Governed.trigger {e : Engine σ} (h : e.Governed) (target : Nat) :
    (trigger target e).2.Governed := by
  cases hphase : e.governor.isTriggered with
  | true =>
    rw [trigger_of_isTriggered hphase]
    exact h
  | false =>
    obtain ⟨j, htrigger⟩ := trigger_of_idle hphase target
    let e₁ := (e.withSymbolic { e.machine.symbolic with journal := j }).under e.governor.allowed
      e.governor.trigger
    have h₁ : e₁.Governed := ⟨h.concrete, rfl⟩
    obtain ⟨V, heffects, -⟩ := writeAddress_leads (w := ⟨fun _ _ => True, e₁⟩) target
    rw [htrigger]
    exact h₁.of_effects heffects

/-! ### Calls -/

variable {e : Engine σ} {c : Call}

/-- Every call may hand in any values where every variable counts as given out. -/
theorem over_all (c : Call) : c.Over fun _ _ => True := by
  have hall (v : Value) : v.Over fun _ _ => True := fun t _ => Term.over_iff.2 fun _ _ _ => trivial
  cases c with
  | readMemory address bits => exact hall address
  | writeMemory address data => exact ⟨hall address, hall data⟩
  | xor a b => exact ⟨hall a, hall b⟩
  | _ => trivial

omit [Solver σ] in
theorem entered_cases (e : Engine σ) (c : Call) :
    e.entered c = e ∨ ∃ i, e.governor.isTriggered = true ∧ e.entered c = e.chosen i := by
  cases c with
  | execute i =>
    cases hphase : e.governor.isTriggered with
    | true => exact .inr ⟨i, rfl, if_pos hphase⟩
    | false => exact .inl (if_neg (by rw [hphase]; exact Bool.false_ne_true))
  | _ => exact .inl rfl

omit [Solver σ] in
theorem within_entered (h : e.Governed) (c : Call) : (e.entered c).Within := by
  rcases entered_cases e c with hentered | ⟨i, -, hentered⟩
  · rw [hentered]
    exact h.within
  · rw [hentered]
    exact within_chosen h.concrete i

/-- **A call** allows no domain anew, and it ends in the triggered phase if it starts there. -/
theorem call_one_way (e : Engine σ) (c : Call) :
    (∀ x, (e.call c).governor.allowed.contains x = true →
      e.governor.allowed.contains x = true) ∧
    (e.governor.isTriggered = true → (e.call c).governor.isTriggered = true) := by
  obtain ⟨V, hsteps⟩ := call_transitions (closed_all e) (over_all c)
  have hallowed := (later_of_transitions hsteps).allowed
  have htriggered := (later_of_transitions hsteps).phase
  dsimp only at hallowed htriggered
  rcases entered_cases e c with hentered | ⟨i, -, hentered⟩
  · rw [hentered] at hallowed htriggered
    exact ⟨fun x hx => hallowed ▸ hx, htriggered⟩
  · rw [hentered] at hallowed htriggered
    refine ⟨fun x hx => Governor.allowed_of_checkComplexity (hallowed ▸ hx), fun htrig => ?_⟩
    exact htriggered ((Governor.isTriggered_checkComplexity e.governor e.complexity).trans htrig)

theorem concrete_call (h : e.Governed) (c : Call) :
    (e.call c).governor.allowed.contains .concrete = true := by
  obtain ⟨V, hsteps⟩ := call_transitions (closed_all e) (over_all c)
  have hallowed := (later_of_transitions hsteps).allowed
  dsimp only at hallowed
  rw [hallowed]
  rcases entered_cases e c with hentered | ⟨i, -, hentered⟩
  · rw [hentered]
    exact h.concrete
  · rw [hentered]
    exact Governor.concrete_checkComplexity h.concrete _

/-- **A call**, whether it succeeds or fails, leaves the allowed domains active, or the concrete
one if the engine is still idle. -/
theorem governed_call (h : e.Governed) (c : Call) : (e.call c).Governed := by
  have hleads {α : Type} {act : EngineM σ α} {P : Widths → Except Fault α → Prop}
      (hact : Leads Effect ⟨fun _ _ => True, e⟩ act P) : (act e).2.Governed := by
    obtain ⟨V, heffects, -⟩ := hact
    exact h.of_effects heffects
  have hover := over_all c
  have hw := closed_all e
  cases c with
  | trigger target => exact h.trigger target
  | execute i =>
    show (execute i e).2.Governed
    cases hphase : e.governor.isTriggered with
    | false =>
      rw [execute_of_idle hphase]
      exact h.step i
    | true =>
      have htriggered := (call_one_way e (.execute i)).2 hphase
      obtain ⟨-, hactive⟩ := execute_transitions hphase hw i
      exact ⟨concrete_call h (.execute i), hactive.trans (if_pos htriggered).symm⟩
  | readMemory address bits => exact hleads (readMemory_leads hw hover bits)
  | writeMemory address data => exact hleads (writeMemory_leads hover.1 hover.2)
  | xor a b => exact hleads (xor_leads hover.1 hover.2)
  | ensure d v => exact h.of_same rfl rfl rfl
  | resetUsage => exact h.of_same rfl rfl rfl

theorem governed_calls (h : e.Governed) (cs : List Call) : (e.calls cs).Governed := by
  induction cs generalizing e with
  | nil => exact h
  | cons c cs ih => exact ih (governed_call h c)

/-- The domains that are allowed get fewer, and the trigger is never taken back. -/
theorem calls_narrow (e : Engine σ) (cs : List Call) :
    (∀ x, (e.calls cs).governor.allowed.contains x = true →
      e.governor.allowed.contains x = true) ∧
    (e.governor.isTriggered = true → (e.calls cs).governor.isTriggered = true) := by
  induction cs generalizing e with
  | nil => exact ⟨fun _ => id, id⟩
  | cons c cs ih =>
    obtain ⟨hallowed, htriggered⟩ := call_one_way e c
    obtain ⟨hallowed', htriggered'⟩ := ih (e.call c)
    exact ⟨fun x hx => hallowed x (hallowed' x hx), fun h => htriggered' (htriggered h)⟩

/-! ### Without the symbolic domain -/

/-- The engine's queries, the newest first. -/
def queries (e : Engine (Recorder σ)) : List Term := e.machine.symbolic.queries

/-- Is everything that only the symbolic domain may change the same? -/
structure SameSymbolic (e e' : Engine (Recorder σ)) : Prop where
  log : e'.log = e.log
  registers : ∀ r, (e'.machine.registers.get r).symbolic = (e.machine.registers.get r).symbolic
  next : e'.machine.symbolic.nextVariable = e.machine.symbolic.nextVariable
  queries : e'.queries = e.queries

variable {f f' f'' : Engine (Recorder σ)}

omit [Solver σ] in
theorem SameSymbolic.refl (f : Engine (Recorder σ)) : f.SameSymbolic f :=
  ⟨rfl, fun _ => rfl, rfl, rfl⟩

omit [Solver σ] in
theorem SameSymbolic.trans (h : f.SameSymbolic f') (h' : f'.SameSymbolic f'') :
    f.SameSymbolic f'' :=
  ⟨h'.log.trans h.log, fun r => (h'.registers r).trans (h.registers r), h'.next.trans h.next,
    h'.queries.trans h.queries⟩

omit [Solver σ] in
theorem Untouched.sameSymbolic (h : f.Untouched f')
    (hs : f.machine.active.contains .symbolic = false) : f.SameSymbolic f' := by
  obtain ⟨hlog, hnext, hsolver⟩ := h.symbolic hs
  refine ⟨hlog, fun r => h.registers .symbolic hs r, hnext, ?_⟩
  unfold Engine.queries Symbolic.queries
  rw [hsolver]

/-- **Each transition** of an engine without the symbolic domain. -/
theorem Transition.sameSymbolic {w w' : World (Engine (Recorder σ))} (h : Transition w w')
    (hw : w.state.Within) (hs : w.state.governor.allowed.contains .symbolic = false) :
    w.state.SameSymbolic w'.state := by
  have hinactive : w.state.machine.active.contains .symbolic = false := by
    rw [← Bool.not_eq_true] at hs ⊢
    exact mt (hw .symbolic) hs
  cases h with
  | effect h => exact h.untouched.sameSymbolic hinactive
  | committed h =>
    obtain ⟨hlog, hregisters, hnext, hqueries⟩ := (untouched_of_effects h).sameSymbolic hinactive
    exact ⟨hlog, hregisters, hnext, hqueries⟩
  | @discarded V V' e e' h =>
    obtain ⟨hlog, hregisters, hnext, hqueries⟩ := (untouched_of_effects h).sameSymbolic hinactive
    refine ⟨?_, hregisters, hnext, hqueries⟩
    exact truncate_of_append (show e'.log.cells = [] ++ e.log.cells from
      congrArg MemoryLog.cells hlog)
  | activate hd => exact ⟨rfl, fun _ => rfl, rfl, rfl⟩
  | govern _ => exact ⟨rfl, fun _ => rfl, rfl, rfl⟩
  | report _ _ | reset =>
    exact ⟨rfl, fun _ => rfl, rfl, Symbolic.queries_resetUsage _⟩

theorem sameSymbolic_of_transitions {w w' : World (Engine (Recorder σ))}
    (h : ReflTransGen Transition w w') (hw : w.state.Within)
    (hs : w.state.governor.allowed.contains .symbolic = false) :
    w.state.SameSymbolic w'.state ∧ w'.state.Within := by
  induction h with
  | refl => exact ⟨.refl _, hw⟩
  | tail hsteps h ih =>
    obtain ⟨hsame, hwithin⟩ := ih
    rw [← (later_of_transitions hsteps).allowed] at hs
    exact ⟨hsame.trans (h.sameSymbolic hwithin hs), h.within hwithin⟩

/-- A call after which the symbolic domain is not allowed does nothing with it, be it the call
that costs the run the domain or a later one. -/
theorem sameSymbolic_call (h : f.Governed) {c : Call}
    (hs : (f.call c).governor.allowed.contains .symbolic = false) : f.SameSymbolic (f.call c) := by
  obtain ⟨V, hsteps⟩ := call_transitions (closed_all f) (over_all c)
  rw [(later_of_transitions hsteps).allowed] at hs
  obtain ⟨hsame, -⟩ := sameSymbolic_of_transitions hsteps (within_entered h c) hs
  refine SameSymbolic.trans ?_ hsame
  rcases entered_cases f c with hentered | ⟨i, -, hentered⟩
  · rw [hentered]
    exact .refl f
  · rw [hentered]
    exact ⟨rfl, fun _ => rfl, rfl, rfl⟩

theorem sameSymbolic_calls (h : f.Governed) {cs : List Call}
    (hs : f.governor.allowed.contains .symbolic = false) : f.SameSymbolic (f.calls cs) := by
  induction cs generalizing f with
  | nil => exact .refl f
  | cons c cs ih =>
    have hs' : (f.call c).governor.allowed.contains .symbolic = false := by
      rw [← Bool.not_eq_true] at hs ⊢
      exact mt ((call_one_way f c).1 .symbolic) hs
    exact (sameSymbolic_call h hs').trans (ih (governed_call h c) hs')

/-- **What is switched off stays off.** Over any calls of an engine, whether they succeed or fail,
the concrete domain is allowed, and the allowed domains get fewer; the trigger is never taken back;
after each call the allowed domains are active, or the concrete one before the trigger. And once
the symbolic domain is not allowed any more it cannot be asked for, and neither the call that cost
the run the domain nor any later one changes the log, a term in a register or the next variable,
or asks the solver. -/
theorem calls_one_way (bus : Bus) (config : Config) (solver : Option σ) (cs : List Call) :
    let e := (start bus config (solver.map fun s => ({ inner := s } : Recorder σ))).calls cs
    e.governor.allowed.contains .concrete = true ∧
    e.machine.active = (if e.governor.isTriggered then e.governor.allowed else .concreteOnly) ∧
    (∀ ds x, (e.calls ds).governor.allowed.contains x = true →
      e.governor.allowed.contains x = true) ∧
    (e.governor.isTriggered = true → ∀ ds, (e.calls ds).governor.isTriggered = true) ∧
    (e.governor.allowed.contains .symbolic = false → ∀ v : Value, ∃ fault,
      v.ensure e.machine.active .symbolic = .error fault ∧ fault.kind = .missingData .symbolic) ∧
    ∀ c ds, (e.call c).governor.allowed.contains .symbolic = false →
      e.SameSymbolic ((e.call c).calls ds) := by
  intro e
  have h : e.Governed := governed_calls (governed_start _ _ _) cs
  refine ⟨h.concrete, h.active, fun ds => (calls_narrow e ds).1,
    fun htrig ds => (calls_narrow e ds).2 htrig, fun hs v => ⟨.inactive .symbolic, ?_, rfl⟩,
    fun c ds hs => (sameSymbolic_call h hs).trans (sameSymbolic_calls (governed_call h c) hs)⟩
  have hinactive : e.machine.active.contains .symbolic = false := by
    rw [← Bool.not_eq_true] at hs ⊢
    exact mt (h.within .symbolic) hs
  unfold Value.ensure
  rw [hinactive]
  rfl

end Engine
end Lockstep
