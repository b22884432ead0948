/-
# Variables stay fresh

A variable gets the number that the next one was to have, and numbers only go
up, also when an instruction fails. So the variables that were given out are
below the next one and stand at one width each, in the registers, in the log
and in what the solver was asked. A variable that is given out later stands
nowhere before.

Key definitions: `Widths.Grows`, `Engine.Occurs`, `Call.Plain`.
Key theorems: `Engine.grows_of_transitions`, `Engine.calls_grow`, `Engine.calls_fresh`.
-/
import Lockstep.Proofs.Engine.OneWay
import Lockstep.Proofs.Run.Seeds

namespace Lockstep

open Relation (ReflTransGen)

/-! ### Widths that grow -/

namespace Widths

variable {V V' V'' : Widths} {n n' n'' : Nat}

/-- Are all variables below the given number? -/
def Bounded (V : Widths) (n : Nat) : Prop := ∀ id w, V id w → id < n

/-- Did the widths grow by variables with numbers from the first one up to the second one? If
every variable stood at one width before, it does so afterwards. -/
structure Grows (V : Widths) (n : Nat) (V' : Widths) (n' : Nat) : Prop where
  le : n ≤ n'
  sub : V.Sub V'
  since : ∀ id w, V' id w → V id w ∨ (n ≤ id ∧ id < n')
  functional : V.Bounded n → V.Functional → V'.Functional

theorem Grows.refl (V : Widths) (n : Nat) : V.Grows n V n :=
  ⟨Nat.le_refl n, .refl V, fun _ _ => .inl, fun _ => id⟩

theorem Grows.bounded (h : V.Grows n V' n') (hV : V.Bounded n) : V'.Bounded n' := by
  intro id w hw
  rcases h.since id w hw with hold | ⟨-, hlt⟩
  · exact Nat.lt_of_lt_of_le (hV id w hold) h.le
  · exact hlt

theorem Grows.trans (h : V.Grows n V' n') (h' : V'.Grows n' V'' n'') : V.Grows n V'' n'' := by
  refine ⟨h.le.trans h'.le, h.sub.trans h'.sub, fun id w hw => ?_,
    fun hbounded hV => h'.functional (h.bounded hbounded) (h.functional hbounded hV)⟩
  rcases h'.since id w hw with hw | ⟨hle, hlt⟩
  · rcases h.since id w hw with hw | ⟨hle, hlt⟩
    · exact .inl hw
    · exact .inr ⟨hle, Nat.lt_of_lt_of_le hlt h'.le⟩
  · exact .inr ⟨Nat.le_trans h.le hle, hlt⟩

theorem grows_allot (V : Widths) (n width : Nat) : V.Grows n (V.allot n width) (n + 1) := by
  refine ⟨Nat.le_succ n, sub_allot V n width, fun id w hw => ?_,
    fun hbounded hV id w w' hw hw' => ?_⟩
  · rcases hw with hw | ⟨rfl, -⟩
    · exact .inl hw
    · exact .inr ⟨Nat.le_refl id, Nat.lt_succ_self id⟩
  · rcases hw with hw | ⟨rfl, rfl⟩
    · rcases hw' with hw' | ⟨rfl, -⟩
      · exact hV id w w' hw hw'
      · exact absurd (hbounded id w hw) (Nat.lt_irrefl id)
    · rcases hw' with hw' | ⟨-, rfl⟩
      · exact absurd (hbounded id w' hw') (Nat.lt_irrefl id)
      · rfl

end Widths

/-- Does the call hand in no variable? A trigger and an instruction hand in no value at all. -/
def Call.Plain (c : Call) : Prop := ∀ V, c.Over V

namespace Engine

variable {σ : Type}

/-- The number of the next variable. -/
def next (e : Engine σ) : Nat := e.machine.symbolic.nextVariable

/-- Does the variable stand at the width in a register or in a cell of the log? -/
def Occurs (e : Engine σ) (id width : Nat) : Prop :=
  (∃ r t, (e.machine.registers.get r).symbolic = some t ∧ t.Mentions id width) ∨
    ∃ c ∈ e.log.cells, c.address.Mentions id width ∨
      ∃ t, c.value.symbolic = some t ∧ t.Mentions id width

variable {V V' : Widths} {e e' : Engine σ}

theorem Closed.occurs (h : Closed ⟨V, e⟩) {id width : Nat} (ho : e.Occurs id width) :
    V id width := by
  rcases ho with ⟨r, t, ht, hm⟩ | ⟨c, hc, hm | ⟨t, ht, hm⟩⟩
  · exact Term.over_iff.1 (h.registers r t ht) id width hm
  · exact Term.over_iff.1 (h.cells c hc).address id width hm
  · exact Term.over_iff.1 ((h.cells c hc).value t ht) id width hm

theorem closed_occurs (e : Engine σ) : Closed ⟨e.Occurs, e⟩ := by
  refine ⟨fun r t ht => Term.over_iff.2 fun id w hm => .inl ⟨r, t, ht, hm⟩, fun c hc => ⟨?_, ?_⟩⟩
  · exact Term.over_iff.2 fun id w hm => .inr ⟨c, hc, .inl hm⟩
  · exact fun t ht => Term.over_iff.2 fun id w hm => .inr ⟨c, hc, .inr ⟨t, ht, hm⟩⟩

variable [Solver σ]

/-! ### Growth by effects and transitions -/

theorem grows_of_effects {w w' : World (Engine σ)} (h : ReflTransGen Effect w w') :
    w.widths.Grows w.state.next w'.widths w'.state.next := by
  induction h with
  | refl => exact .refl _ _
  | tail _ h ih =>
    refine ih.trans ?_
    cases h with
    | symbolic hs h =>
      cases h with
      | fresh bits => exact Widths.grows_allot _ _ _
      | _ => exact .refl _ _
    | @store V e writes hc =>
      have hnext : next { e with machine := e.machine.putBytes writes } = e.next :=
        congrArg Symbolic.nextVariable (Machine.symbolic_putBytes _ _)
      dsimp only
      rw [hnext]
      exact .refl _ _
    | _ => exact .refl _ _

/-- **Numbers only go up**, and every variable that is new has one that was still to be had. -/
theorem grows_of_transitions {w w' : World (Engine σ)} (h : ReflTransGen Transition w w') :
    w.widths.Grows w.state.next w'.widths w'.state.next := by
  induction h with
  | refl => exact .refl _ _
  | tail _ h ih =>
    refine ih.trans ?_
    cases h with
    | effect h => exact grows_of_effects (.single h)
    | committed h | discarded h =>
      -- what becomes of the stores and the cells leaves the numbers
      have hgrows := grows_of_effects h
      exact hgrows
    | _ => exact .refl _ _

/-! ### Queries -/

variable {w w' : World (Engine (Recorder σ))}

theorem queries_of_effects (h : ReflTransGen Effect w w')
    (hw : ∀ t ∈ w.state.queries, t.Over w.widths) : ∀ t ∈ w'.state.queries, t.Over w'.widths := by
  induction h with
  | refl => exact hw
  | tail _ h ih =>
    cases h with
    | symbolic hs h => exact Symbolic.queries_of_effects (.single h) ih
    | @store V e writes hc =>
      have hqueries : queries { e with machine := e.machine.putBytes writes } = e.queries :=
        congrArg Symbolic.queries (Machine.symbolic_putBytes _ _)
      rw [hqueries]
      exact ih
    | _ => exact ih

/-- The solver is asked about terms over variables that were given out. -/
theorem queries_of_transitions (h : ReflTransGen Transition w w')
    (hw : ∀ t ∈ w.state.queries, t.Over w.widths) : ∀ t ∈ w'.state.queries, t.Over w'.widths := by
  induction h with
  | refl => exact hw
  | tail _ h ih =>
    cases h with
    | effect h => exact queries_of_effects (.single h) ih
    | committed h | discarded h =>
      have hqueries := queries_of_effects h ih
      exact hqueries
    | @report V e _ _ _ | @reset V e =>
      have hqueries : e.machine.symbolic.resetUsage.queries = e.queries :=
        Symbolic.queries_resetUsage _
      exact fun t ht => ih t (hqueries ▸ ht)
    | _ => exact ih

/-! ### Calls -/

variable {f : Engine (Recorder σ)}

/-- A call that is handed variables that were given out only. -/
theorem call_grows (hf : Closed ⟨V, f⟩) {c : Call} (hover : c.Over V) :
    ∃ V', V.Grows f.next V' (f.call c).next ∧ Closed ⟨V', f.call c⟩ ∧
      ((∀ t ∈ f.queries, t.Over V) → ∀ t ∈ (f.call c).queries, t.Over V') := by
  obtain ⟨V', hsteps⟩ := call_transitions hf hover
  refine ⟨V', ?_⟩
  rcases entered_cases f c with hentered | ⟨i, -, hentered⟩
  · rw [hentered] at hsteps
    exact ⟨grows_of_transitions hsteps, closed_of_transitions hsteps hf,
      queries_of_transitions hsteps⟩
  · -- the choice of domains leaves the registers, the log and the symbolic state
    rw [hentered] at hsteps
    have hgrows := grows_of_transitions hsteps
    exact ⟨hgrows, closed_of_transitions hsteps ⟨hf.registers, hf.cells⟩,
      queries_of_transitions hsteps⟩

/-- **Calls in a row** that hand in no variables. -/
theorem calls_grow (hf : Closed ⟨V, f⟩) {cs : List Call} (hcs : ∀ c ∈ cs, c.Plain) :
    ∃ V', V.Grows f.next V' (f.calls cs).next ∧ Closed ⟨V', f.calls cs⟩ ∧
      ((∀ t ∈ f.queries, t.Over V) → ∀ t ∈ (f.calls cs).queries, t.Over V') := by
  induction cs generalizing f V with
  | nil => exact ⟨V, .refl _ _, hf, id⟩
  | cons c cs ih =>
    obtain ⟨hc, hcs⟩ := List.forall_mem_cons.1 hcs
    obtain ⟨V₁, hgrows₁, hclosed₁, hqueries₁⟩ := call_grows hf (hc V)
    obtain ⟨V₂, hgrows₂, hclosed₂, hqueries₂⟩ := ih hclosed₁ hcs
    exact ⟨V₂, hgrows₁.trans hgrows₂, hclosed₂, fun hqueries => hqueries₂ (hqueries₁ hqueries)⟩

/-! ### Engines at the start -/

omit [Solver σ] in
/-- The registers of an engine that starts are variables of their own. -/
theorem symbolic_start (bus : Bus) (config : Config) (solver : Option σ) (r : Register) :
    ((start bus config solver).machine.registers.get r).symbolic =
      some (.var r.bits r.index) := by
  have hregisters : (start bus config solver).machine.registers = .ofVariables 0 := rfl
  rw [hregisters, RegisterFile.get_ofVariables, Nat.zero_add]
  rfl

omit [Solver σ] in
theorem closed_start (bus : Bus) (config : Config) (solver : Option σ) {g : RegisterFile}
    (hg : ∀ r, (g.get r).symbolic =
      ((start bus config solver).machine.registers.get r).symbolic) :
    Closed ⟨Register.widths.below Register.all.length,
      (start bus config solver).withRegisters g⟩ := by
  refine ⟨fun r t ht => ?_, List.forall_mem_nil _⟩
  change (g.get r).symbolic = some t at ht
  rw [hg r, symbolic_start] at ht
  obtain rfl := Option.some.inj ht
  have hwidth : Register.widths.below Register.all.length r.index r.bits :=
    ⟨Register.widths_index r, r.index.isLt⟩
  exact hwidth

/-- **Variables stay fresh and queries well formed.** Over triggers and instructions, whether they
succeed or fail, from any seeding that keeps the terms of the registers: these are variables of
their own at first; every variable of a register or a cell is below the next one and stands at one
width everywhere; numbers only go up, and a variable that comes later has a number that was still
to be had; and every query declares exactly the variables of its assertion, each once, by
increasing number, and at the width that it has there. -/
theorem calls_fresh (bus : Bus) (config : Config) (solver : Option σ) {g : RegisterFile}
    {cs : List Call} :
    let start := start bus config (solver.map fun s => ({ inner := s } : Recorder σ))
    (∀ r, (g.get r).symbolic = (start.machine.registers.get r).symbolic) →
    (∀ c ∈ cs, c.Plain) →
    let e := (start.withRegisters g).calls cs
    (∃ ids : Register → Nat, ids.Injective ∧
      ∀ r, (g.get r).symbolic = some (.var r.bits (ids r))) ∧
    (∀ id w, e.Occurs id w → id < e.next) ∧
    (∀ id w w', e.Occurs id w → e.Occurs id w' → w = w') ∧
    (∀ ds : List Call, (∀ c ∈ ds, c.Plain) → e.next ≤ (e.calls ds).next ∧
      ∀ id w, (e.calls ds).Occurs id w → ¬ e.Occurs id w → e.next ≤ id) ∧
    ∀ t ∈ e.queries, ∃ vs : List (Nat × Nat),
      t.zeroQuery = String.join (vs.map declaration) ++
        "(assert (not (= " ++ t.text ++ " " ++ Term.constText t.width 0 ++ ")))\n(check-sat)\n" ∧
      vs.Pairwise (fun u v => u.1 < v.1) ∧ ∀ id w, (id, w) ∈ vs ↔ t.Mentions id w := by
  intro start hg hcs e
  let V := Register.widths.below Register.all.length
  have hfunctional : V.Functional := fun id w w' hw hw' =>
    Register.functional_widths id w w' hw.1 hw'.1
  have hbounded : V.Bounded Register.all.length := fun id w hw => hw.2
  have hnone : (start.withRegisters g).queries = [] := by cases solver <;> rfl
  obtain ⟨V', hgrows, hclosed, hqueries⟩ := calls_grow (closed_start _ _ _ hg) hcs
  have hfunctional' := hgrows.functional hbounded hfunctional
  refine ⟨⟨fun r => r.index, fun r s h => Register.index_inj (Fin.ext h), fun r => ?_⟩,
    fun id w ho => hgrows.bounded hbounded id w (hclosed.occurs ho),
    fun id w w' ho ho' => hfunctional' id w w' (hclosed.occurs ho) (hclosed.occurs ho'),
    fun ds hds => ?_, fun t ht => ⟨t.vars, rfl, t.sorted_vars, ?_⟩⟩
  · rw [hg r, symbolic_start]
  · obtain ⟨V₂, hgrows₂, hclosed₂, -⟩ := calls_grow (closed_occurs e) hds
    refine ⟨hgrows₂.le, fun id w ho hnot => ?_⟩
    exact ((hgrows₂.since id w (hclosed₂.occurs ho)).resolve_left hnot).1
  · exact Term.mem_vars hfunctional' (hqueries (by rw [hnone]; exact List.forall_mem_nil _) t ht)

/-- A seeded run that is triggered and then takes an unknown number for `eax`. -/
theorem calls_fresh_unknown :
    let j : Job :=
      { registers := [("eax", { concrete := some 5 })], entry := 0, instructions := [] }
    let i : Instruction :=
      { address := 0, length := 1, statements := [.setRegister "eax" (.undefined 32)] }
    let start : Engine (Recorder Backend) :=
      start .empty {} ((some .normalizing).map fun s => { inner := s })
    ∃ g, j.seedRegisters (.ofVariables 0) = .ok g ∧
      (∀ r, (g.get r).symbolic = (start.machine.registers.get r).symbolic) ∧
      (∀ c ∈ [Call.trigger 0, Call.execute i], c.Plain) ∧
      ∀ id w, ((start.withRegisters g).calls [.trigger 0, .execute i]).Occurs id w →
        id < ((start.withRegisters g).calls [.trigger 0, .execute i]).next := by
  intro j i start
  have hplain : ∀ c ∈ [Call.trigger 0, Call.execute i], c.Plain := by simp [Call.Plain, Call.Over]
  have hseed : j.seedRegisters (.ofVariables 0) = .ok _ := rfl
  have hsymbolic := Job.symbolic_seedRegisters hseed
  exact ⟨_, hseed, hsymbolic, hplain,
    (calls_fresh .empty {} (some Backend.normalizing) hsymbolic hplain).2.1⟩

end Engine
end Lockstep
