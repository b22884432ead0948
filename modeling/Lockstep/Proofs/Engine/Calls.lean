/-
# Calls of the engine

Whoever uses an engine calls it in any order: it is triggered, it executes
instructions, it loads and stores words, and so on; calls may fail. Besides the
effects of instructions a call can change which of the allowed domains are
active, advance the clock, and let the solver count anew. The look at the
complexity and the choice of domains come first of all, so nothing is done in a
call with a domain that the call costs the run.

Key definitions: `Call`, `Engine.call`, `Engine.calls`, `Engine.chosen`, `Engine.entered`,
`Engine.Transition`, `Engine.enter`.
Key theorems: `Engine.later_of_transitions`, `Engine.closed_of_transitions`,
`Engine.call_transitions`.
-/
import Lockstep.Proofs.Engine.Effects
import Lockstep.Proofs.Engine.Execute

namespace Lockstep

/-- A call of the engine. -/
inductive Call where
  | trigger (target : Nat)
  | execute (i : Instruction)
  | readMemory (address : Value) (bits : Nat)
  | writeMemory (address data : Value)
  | xor (a b : Value)
  | ensure (d : Domain) (v : Value)
  | resetUsage

/-- Is the second governor the first one at a later time? Neither the allowed domains nor the limits
change, and a triggered one stays so. -/
structure Governor.Later (g g' : Governor) : Prop where
  allowed : g'.allowed = g.allowed
  threshold : g'.threshold = g.threshold
  overflowed : g'.overflowed = g.overflowed
  phase : g.isTriggered = true → g'.isTriggered = true

theorem Governor.Later.of_eq {g g' : Governor} (h : g' = g) : g.Later g' := by
  subst h
  exact ⟨rfl, rfl, rfl, id⟩

theorem Governor.Later.refl (g : Governor) : g.Later g := .of_eq rfl

theorem Governor.Later.trans {g g' g'' : Governor} (h : g.Later g') (h' : g'.Later g'') :
    g.Later g'' :=
  ⟨h'.allowed.trans h.allowed, h'.threshold.trans h.threshold, h'.overflowed.trans h.overflowed,
    fun htrig => h'.phase (h.phase htrig)⟩

/-- Do the values that are handed in mention variables that were given out only? -/
def Call.Over (V : Widths) : Call → Prop
  | readMemory address _ => address.Over V
  | writeMemory address data => address.Over V ∧ data.Over V
  | xor a b => a.Over V ∧ b.Over V
  | _ => True

namespace Engine

open Relation (ReflTransGen)

variable {σ : Type} [Solver σ]

/-- The engine after a call, whether this succeeds or fails. -/
def call (e : Engine σ) : Call → Engine σ
  | .trigger target => (trigger target e).2
  | .execute i => (execute i e).2
  | .readMemory address bits => (readMemory address bits e).2
  | .writeMemory address data => (writeMemory address data e).2
  | .xor a b => (xor a b e).2
  | .ensure d v => ((liftM (v.ensure e.machine.active d) : EngineM σ Value) e).2
  | .resetUsage => e.resetUsage

/-- The engine after calls in a row. -/
def calls (e : Engine σ) (cs : List Call) : Engine σ := cs.foldl call e

omit [Solver σ] in
/-- The engine after a look at the complexity, with the domains active that an instruction gets
from what is left. -/
def chosen (e : Engine σ) (i : Instruction) : Engine σ :=
  let g := e.governor.checkComplexity e.complexity
  e.under (if i.kind.isTrap then .concreteOnly else g.allowed) g

omit [Solver σ] in
/-- The engine in which a call starts: after the trigger an instruction starts with the choice of
domains. -/
def entered (e : Engine σ) : Call → Engine σ
  | .execute i => if e.governor.isTriggered then e.chosen i else e
  | _ => e

/-- One thing that can happen in a call, after the choice of domains. -/
inductive Transition : World (Engine σ) → World (Engine σ) → Prop
  | effect {w w' : World (Engine σ)} (h : Effect w w') : Transition w w'
  | committed {V V' : Widths} {e e' : Engine σ}
    (h : ReflTransGen Effect ⟨V, e.beginWrites⟩ ⟨V', e'⟩) :
    Transition ⟨V, e⟩ ⟨V', e'.commitWrites⟩
  | discarded {V V' : Widths} {e e' : Engine σ}
    (h : ReflTransGen Effect ⟨V, e.beginWrites⟩ ⟨V', e'⟩) :
    Transition ⟨V, e⟩ ⟨V', e'.discardWrites e.log.size⟩
  | activate {V : Widths} {e : Engine σ} {d : DomainSet}
    (hd : ∀ x, d.contains x = true → e.governor.allowed.contains x = true) :
    Transition ⟨V, e⟩ ⟨V, { e with machine := { e.machine with active := d } }⟩
  | govern {V : Widths} {e : Engine σ} {g : Governor} (h : e.governor.Later g) :
    Transition ⟨V, e⟩ ⟨V, { e with governor := g }⟩
  | report {V : Widths} {e : Engine σ} {usage : Usage}
    (husage : e.machine.symbolic.usage? = some usage) (hcalls : usage.calls ≠ 0) :
    Transition ⟨V, e⟩ ⟨V, { e with
      machine := { e.machine with symbolic := e.machine.symbolic.resetUsage }
      lastReport := some ⟨e.governor.instructions, usage⟩ }⟩
  | reset {V : Widths} {e : Engine σ} : Transition ⟨V, e⟩ ⟨V, e.resetUsage⟩

variable {w w' : World (Engine σ)}

/-! ### What transitions keep -/

/-- After the choice of domains a call keeps the allowed ones and the limits. -/
theorem later_of_transitions (h : ReflTransGen Transition w w') :
    w.state.governor.Later w'.state.governor := by
  induction h with
  | refl => exact .refl _
  | tail _ h ih =>
    refine ih.trans ?_
    cases h with
    | effect h =>
      rw [governor_of_effects (.single h)]
      exact .refl _
    | @committed _ _ e _ h | @discarded _ _ e _ h =>
      have hgovernor : _ = e.governor := governor_of_effects h
      exact .of_eq hgovernor
    | govern h => exact h
    | reset => exact ⟨rfl, rfl, rfl, id⟩
    | _ => exact .refl _

theorem closed_of_transitions (h : ReflTransGen Transition w w') (hw : Closed w) : Closed w' := by
  induction h with
  | refl => exact hw
  | tail _ h ih =>
    cases h with
    | effect h => exact ih.effect h
    | committed h =>
      obtain ⟨hregisters, hcells⟩ := closed_of_effects h ⟨ih.registers, ih.cells⟩
      exact ⟨hregisters, hcells⟩
    | discarded h =>
      obtain ⟨hregisters, hcells⟩ := closed_of_effects h ⟨ih.registers, ih.cells⟩
      exact ⟨hregisters, fun c hc => hcells c (List.mem_of_mem_drop hc)⟩
    | _ => exact ⟨ih.registers, ih.cells⟩

/-! ### Steps -/

theorem leads_of_effects {α : Type} {x : EngineM σ α} {P : Widths → Except Fault α → Prop}
    (h : Leads Effect w x P) : Leads Transition w x P := by
  obtain ⟨V, heffects, hP⟩ := h
  have hle : Effect ≤ (Transition : World (Engine σ) → World (Engine σ) → Prop) :=
    fun _ _ => .effect
  exact ⟨V, ReflTransGen.mono hle _ _ heffects, hP⟩

/-- A step goes with all of its stores and cells, or with none. -/
theorem step_leads (hw : Closed w) (i : Instruction) :
    Leads Transition w (step i) (OnSuccess fun _ _ => True) := by
  obtain ⟨V, e⟩ := w
  obtain ⟨V', heffects, -⟩ := run_leads (w := ⟨V, e.beginWrites⟩) ⟨hw.registers, hw.cells⟩ i
  refine ⟨V', .single ?_, fun _ _ => trivial⟩
  unfold step
  dsimp only at heffects ⊢
  rcases hrun : run i e.beginWrites with ⟨fault | _, e'⟩
  · rw [hrun] at heffects
    exact .discarded heffects
  · rw [hrun] at heffects
    exact .committed heffects

/-! ### The trigger and the governor -/

theorem leads_transition {f : Engine σ → Engine σ} {V : Widths}
    (h : Transition w ⟨V, f w.state⟩) :
    Leads Transition w (modify f : EngineM σ PUnit) (OnSuccess fun _ _ => True) :=
  ⟨V, .single h, fun _ _ => trivial⟩

theorem writeAddress_leads (address : Nat) :
    Leads Effect w (writeAddress address) (OnSuccess fun _ _ => True) := by
  refine leads_write .eip fun machine h => ?_
  obtain ⟨v, hv, h⟩ := bind_eq_ok h
  exact ⟨v, Value.over_number hv, h⟩

theorem trigger_leads (target : Nat) :
    Leads Transition w (trigger target) (OnSuccess fun _ _ => True) := by
  refine leads_getExcept ?_
  split
  · exact leads_pure fun _ _ => trivial
  · refine (leads_transition (.govern (g := w.state.governor.trigger)
      ⟨rfl, rfl, rfl, fun _ => rfl⟩)).bindExcept
      fun _ w₁ h₁ _ => ?_
    refine (leads_of_effects (leads_note _ _)).bindExcept fun _ w₂ h₂ _ => ?_
    refine (leads_transition (.activate fun x hx => ?_)).bindExcept fun _ w₃ _ _ =>
      leads_of_effects (writeAddress_leads target)
    rw [(later_of_transitions (h₁.trans h₂)).allowed]
    exact hx

/-- A report says what the solver was used for since the report before. -/
theorem reportUsage_leads : Leads Transition w reportUsage (OnSuccess fun _ _ => True) := by
  obtain ⟨V, e⟩ := w
  refine leads_getExcept ?_
  dsimp only
  split
  · exact leads_pure fun _ _ => trivial
  · rename_i usage husage
    split
    · rename_i hcalls
      -- the note leaves the solver, so the report is of what it was used for
      refine ⟨V, ReflTransGen.tail (.single (.effect (.note _))) (.report ?_ hcalls),
        fun _ _ => trivial⟩
      exact husage
    · exact leads_pure fun _ _ => trivial

variable {V : Widths} {e : Engine σ}

/-- What the governor does before an instruction whose domains are chosen. -/
def enter (address : Nat) : EngineM σ Unit := do
  writeAddress address
  modify fun e => { e with governor := e.governor.tick }
  if (← get).governor.reportDue then reportUsage

theorem enter_leads (address : Nat) :
    Leads Transition w (enter address) (OnSuccess fun _ _ => True) := by
  refine (leads_of_effects (writeAddress_leads address)).bindExcept fun _ w₁ _ _ => ?_
  refine (leads_transition (.govern (g := w₁.state.governor.tick) ⟨rfl, rfl, rfl, id⟩)).bindExcept
    fun _ w₂ _ _ => ?_
  refine leads_getExcept ?_
  split
  · exact reportUsage_leads
  · exact leads_pure fun _ _ => trivial

/-- An instruction starts with the choice of domains, which may be noted. -/
theorem beforeInstruction_eq (htrig : e.governor.isTriggered = true) (i : Instruction) :
    ∃ j, beforeInstruction i e =
      enter i.address ((e.chosen i).withSymbolic { e.machine.symbolic with journal := j }) := by
  unfold beforeInstruction
  rw [apply_bind_ok (apply_get e), htrig, if_pos rfl]
  dsimp only
  rw [apply_bind_ok (apply_modify _ e)]
  split
  · obtain ⟨j, hnote⟩ := note_journal { e with
      governor := e.governor.checkComplexity e.complexity } .info fun _ =>
        s!"symbolic complexity {e.complexity} exceeds {e.governor.threshold}; " ++
          "symbolic domain disabled"
    rw [apply_bind_ok hnote]
    exact ⟨j, rfl⟩
  · exact ⟨e.machine.symbolic.journal, rfl⟩

theorem beforeInstruction_transitions (htrig : e.governor.isTriggered = true) (i : Instruction) :
    ∃ V', ReflTransGen Transition ⟨V, e.chosen i⟩ ⟨V', (beforeInstruction i e).2⟩ := by
  obtain ⟨j, hbefore⟩ := beforeInstruction_eq htrig i
  obtain ⟨V', hsteps, -⟩ := enter_leads i.address
    (w := ⟨V, (e.chosen i).withSymbolic { e.machine.symbolic with journal := j }⟩)
  rw [hbefore]
  exact ⟨V', .head (.effect (.note (e := e.chosen i) j)) hsteps⟩

/-! ### Instructions and calls -/

theorem execute_of_idle (hidle : e.governor.isTriggered = false) (i : Instruction) :
    execute i e = step i e := by
  unfold execute
  rw [apply_bind_ok (apply_get e), hidle]
  rfl

/-- An instruction from the choice of domains to what comes after it. -/
theorem middle_transitions (htrig : e.governor.isTriggered = true)
    (hw : Closed ⟨V, e⟩) (i : Instruction) :
    ∃ V', ReflTransGen Transition ⟨V, e.chosen i⟩ ⟨V', ((beforeInstruction i *> step i) e).2⟩ := by
  obtain ⟨V₁, hbefore⟩ := beforeInstruction_transitions (V := V) htrig i
  rcases hact : beforeInstruction i e with ⟨fault | _, e₁⟩
  · have hboth : (beforeInstruction i *> step i) e = (.error fault, e₁) := apply_bind_error hact _
    rw [hact] at hbefore
    rw [hboth]
    exact ⟨V₁, hbefore⟩
  · have hboth : (beforeInstruction i *> step i) e = step i e₁ := apply_bind_ok hact _
    rw [hact] at hbefore
    obtain ⟨V₂, hstep, -⟩ :=
      step_leads (closed_of_transitions hbefore ⟨hw.registers, hw.cells⟩) i
    rw [hboth]
    exact ⟨V₂, hbefore.trans hstep⟩

/-- After an instruction the allowed domains become active. -/
theorem afterInstruction_transitions (htrig : w.state.governor.isTriggered = true)
    (i : Instruction) :
    ∃ e', afterInstruction i w.state = (.ok (), e') ∧ ReflTransGen Transition w ⟨w.widths, e'⟩ ∧
      e'.machine.active = e'.governor.allowed := by
  obtain ⟨V, e⟩ := w
  unfold afterInstruction
  rw [apply_bind_ok (apply_get e), htrig, if_pos rfl]
  obtain ⟨j, hnote⟩ := note_journal e .debug fun _ =>
    "after " ++ hexAddress i.address ++ " " ++ i.text ++ ":\n" ++ e.snapshot.text
  rw [apply_bind_ok hnote]
  exact ⟨_, rfl, .tail (.single (.effect (.note j))) (.activate fun _ h => h), rfl⟩

/-- **A triggered instruction** is the choice of domains and transitions. Whether it succeeds or
fails, the allowed domains are active after it. -/
theorem execute_transitions (htrig : e.governor.isTriggered = true) (hw : Closed ⟨V, e⟩)
    (i : Instruction) :
    (∃ V', ReflTransGen Transition ⟨V, e.chosen i⟩ ⟨V', (execute i e).2⟩) ∧
      (execute i e).2.machine.active = (execute i e).2.governor.allowed := by
  have hchosen : (e.chosen i).governor.isTriggered = true := by
    rw [← htrig]
    exact Governor.isTriggered_checkComplexity e.governor e.complexity
  obtain ⟨V₂, hsteps⟩ := middle_transitions htrig hw i
  rcases hboth : (beforeInstruction i *> step i) e with ⟨r, e₂⟩
  rw [hboth] at hsteps
  unfold execute
  rw [apply_bind_ok (apply_get e), htrig, Bool.not_true, if_neg Bool.false_ne_true,
    apply_bind_ok (apply_lift_run hboth)]
  cases r with
  | ok _ =>
    obtain ⟨e', hafter, hlast, hactive⟩ :=
      afterInstruction_transitions ((later_of_transitions hsteps).phase hchosen) i
    dsimp only
    rw [apply_bind_ok hafter]
    exact ⟨⟨V₂, hsteps.trans hlast⟩, hactive⟩
  | error fault =>
    obtain ⟨j, hnote⟩ := note_journal e₂ .warn fun _ =>
      hexAddress i.address ++ " " ++ i.text ++ ": " ++ fault.message
    have hnoted := hsteps.tail (.effect (.note j))
    obtain ⟨e', hafter, hlast, hactive⟩ :=
      afterInstruction_transitions ((later_of_transitions hnoted).phase hchosen) i
    dsimp only
    rw [apply_bind_ok hnote, apply_bind_ok hafter]
    exact ⟨⟨V₂, hnoted.trans hlast⟩, hactive⟩

/-- **A call** is a sequence of transitions from the engine in which it starts. -/
theorem call_transitions (hw : Closed ⟨V, e⟩) {c : Call} (hover : c.Over V) :
    ∃ V', ReflTransGen Transition ⟨V, e.entered c⟩ ⟨V', e.call c⟩ := by
  have hleads {α : Type} {act : EngineM σ α} {P : Widths → Except Fault α → Prop}
      (h : Leads Transition ⟨V, e⟩ act P) :
      ∃ V', ReflTransGen Transition ⟨V, e⟩ ⟨V', (act e).2⟩ := by
    obtain ⟨V', hsteps, -⟩ := h
    exact ⟨V', hsteps⟩
  cases c with
  | trigger target => exact hleads (trigger_leads target)
  | execute i =>
    show ∃ V', ReflTransGen Transition ⟨V, if e.governor.isTriggered then e.chosen i else e⟩
      ⟨V', (execute i e).2⟩
    cases hphase : e.governor.isTriggered with
    | true => exact (execute_transitions hphase hw i).1
    | false =>
      rw [execute_of_idle hphase]
      exact hleads (step_leads hw i)
  | readMemory address bits =>
    exact hleads (leads_of_effects (readMemory_leads hw hover bits))
  | writeMemory address data =>
    exact hleads (leads_of_effects (writeMemory_leads hover.1 hover.2))
  | xor a b => exact hleads (leads_of_effects (xor_leads hover.1 hover.2))
  | ensure d v =>
    refine ⟨V, ?_⟩
    show ReflTransGen Transition ⟨V, e⟩
      ⟨V, ((liftM (v.ensure e.machine.active d) : EngineM σ Value) e).2⟩
    rw [apply_liftExcept]
  | resetUsage => exact ⟨V, .single .reset⟩

end Engine
end Lockstep
