/-
# What an instruction can do to the engine

While an instruction runs, events are noted, registers are written in the
active domains, and bytes are put in memory with the concrete domain. With the
symbolic domain, and only with it, variables are given out, the solver is asked
and cells are logged. Nothing else happens: whatever holds of each of these
holds of every instruction. What is written, logged and asked mentions
variables that were given out, if registers and cells do.

Key definitions: `Engine.Effect`, `Engine.Closed`.
Key theorems: `Engine.sub_of_effects`, `Engine.closed_of_effects`, `Engine.readMemory_leads`,
`Engine.evaluate_leads`, `Engine.writeMemory_leads`, `Engine.perform_leads`, `Engine.run_leads`.
-/
import Lockstep.Proofs.Engine.Staging
import Lockstep.Proofs.Memory.Effects

namespace Lockstep
namespace Engine

open Relation (ReflTransGen)

variable {σ α β : Type} [Solver σ]

/-- One thing that can happen to an engine while an instruction runs. -/
inductive Effect : World (Engine σ) → World (Engine σ) → Prop
  | note {V : Widths} {e : Engine σ} (j : Journal) :
    Effect ⟨V, e⟩ ⟨V, e.withSymbolic { e.machine.symbolic with journal := j }⟩
  | symbolic {V V' : Widths} {e : Engine σ} {s : Symbolic σ}
    (hs : e.machine.active.contains .symbolic = true)
    (h : Symbolic.Effect ⟨V, e.machine.symbolic⟩ ⟨V', s⟩) :
    Effect ⟨V, e⟩ ⟨V', e.withSymbolic s⟩
  | write {V : Widths} {e : Engine σ} (r : Register) {v : Value} (hv : v.Over V) :
    Effect ⟨V, e⟩ ⟨V, e.written r v⟩
  | store {V : Widths} {e : Engine σ} (writes : List (Nat × UInt8))
    (hc : e.machine.active.contains .concrete = true) :
    Effect ⟨V, e⟩ ⟨V, { e with machine := e.machine.putBytes writes }⟩
  | log {V : Widths} {e : Engine σ} {cells : List Cell}
    (hs : e.machine.active.contains .symbolic = true) (hcells : ∀ c ∈ cells, c.Over V) :
    Effect ⟨V, e⟩ ⟨V, { e with log := cells.foldl MemoryLog.write e.log }⟩
  | trap {V : Widths} {e : Engine σ} (vector : Nat) :
    Effect ⟨V, e⟩ ⟨V, { e with lastTrap := some vector }⟩

/-- Do registers and cells mention variables that were given out only? -/
structure Closed (w : World (Engine σ)) : Prop where
  registers : ∀ r, (w.state.machine.registers.get r).Over w.widths
  cells : ∀ c ∈ w.state.log.cells, c.Over w.widths

variable {w w' : World (Engine σ)} {m : DomainSet} {u v : Value}

omit [Solver σ] in
/-- Where every variable counts as given out, every engine is closed. -/
theorem closed_all (e : Engine σ) : Closed ⟨fun _ _ => True, e⟩ := by
  have hall (t : Term) : t.Over fun _ _ => True := Term.over_iff.2 fun _ _ _ => trivial
  exact ⟨fun _ t _ => hall t, fun c _ => ⟨hall c.address, fun t _ => hall t⟩⟩

/-! ### What effects keep -/

theorem sub_of_effect (h : Effect w w') : w.widths.Sub w'.widths := by
  cases h with
  | symbolic _ h => exact Symbolic.sub_of_effects (.single h)
  | _ => exact .refl _

theorem sub_of_effects (h : ReflTransGen Effect w w') : w.widths.Sub w'.widths := by
  induction h with
  | refl => exact .refl _
  | tail _ h ih => exact ih.trans (sub_of_effect h)

theorem active_of_effects (h : ReflTransGen Effect w w') :
    w'.state.machine.active = w.state.machine.active := by
  induction h with
  | refl => rfl
  | tail _ h ih =>
    rw [← ih]
    cases h with
    | store writes => exact Machine.active_putBytes _ _
    | _ => rfl

theorem governor_of_effects (h : ReflTransGen Effect w w') :
    w'.state.governor = w.state.governor := by
  induction h with
  | refl => rfl
  | tail _ h ih =>
    rw [← ih]
    cases h <;> rfl

omit [Solver σ] in
theorem Closed.withSymbolic {V V' : Widths} {e : Engine σ} (h : Closed ⟨V, e⟩) (hV : V.Sub V')
    (s : Symbolic σ) : Closed ⟨V', e.withSymbolic s⟩ :=
  ⟨fun r => (h.registers r).mono hV, fun c hc => (h.cells c hc).mono hV⟩

theorem Closed.effect (h : Effect w w') (hw : Closed w) : Closed w' := by
  cases h with
  | note j => exact hw.withSymbolic (.refl _) _
  | symbolic hs h => exact hw.withSymbolic (Symbolic.sub_of_effects (.single h)) _
  | write r hv =>
    refine ⟨fun q => ?_, hw.cells⟩
    dsimp only
    rw [get_written]
    split
    · exact (hw.registers r).takeParts hv _
    · exact hw.registers q
  | store writes hc =>
    refine ⟨fun r => ?_, hw.cells⟩
    dsimp only
    rw [Machine.registers_putBytes]
    exact hw.registers r
  | log hs hcells =>
    refine ⟨hw.registers, fun c hc => ?_⟩
    dsimp only at hc
    rw [MemoryLog.foldl_write] at hc
    rcases List.mem_append.1 hc with hc | hc
    · exact hcells c (List.mem_reverse.1 hc)
    · exact hw.cells c hc
  | trap vector => exact ⟨hw.registers, hw.cells⟩

theorem closed_of_effects (h : ReflTransGen Effect w w') (hw : Closed w) : Closed w' := by
  induction h with
  | refl => exact hw
  | tail _ h ih => exact ih.effect h

/-! ### Computations on the symbolic state -/

theorem effects_withSymbolic {e : Engine σ} (hs : e.machine.active.contains .symbolic = true)
    {x y : World (Symbolic σ)} (h : ReflTransGen Symbolic.Effect x y) :
    ReflTransGen Effect ⟨x.widths, e.withSymbolic x.state⟩ ⟨y.widths, e.withSymbolic y.state⟩ := by
  induction h with
  | refl => exact .refl
  | tail _ h ih => exact ih.tail (Effect.symbolic hs h)

theorem leads_symbolically {act : ExceptT Fault (SymbolicM σ) α} {P : Widths → α → Prop}
    (hs : w.state.machine.active.contains .symbolic = true)
    (h : Leads Symbolic.Effect ⟨w.widths, w.state.machine.symbolic⟩ act (OnSuccess P)) :
    Leads Effect w (symbolically act) (OnSuccess P) := by
  obtain ⟨V, hsteps, hP⟩ := h
  exact ⟨V, effects_withSymbolic hs hsteps, hP⟩

/-- Without the symbolic domain a computation on the symbolic state must leave it. -/
theorem leads_symbolically_of_eq {act : ExceptT Fault (SymbolicM σ) α} {P : Widths → α → Prop}
    (h : (act w.state.machine.symbolic).2 = w.state.machine.symbolic)
    (hP : ∀ a, (act w.state.machine.symbolic).1 = .ok a → P w.widths a) :
    Leads Effect w (symbolically act) (OnSuccess P) := by
  have hafter : (symbolically act w.state).2 = w.state := congrArg w.state.withSymbolic h
  refine ⟨w.widths, ?_, hP⟩
  rw [hafter]

theorem leads_note (level : Level) (message : Unit → String) :
    Leads Effect w (note level message : EngineM σ Unit) (OnSuccess fun _ _ => True) :=
  ⟨w.widths, .single (.note _), fun _ _ => trivial⟩

theorem undefined_leads (hm : w.state.machine.active = m) (bits : Nat) :
    Leads Effect w (symbolically (Value.undefined m bits)) (OnSuccess fun V v => v.Over V) := by
  by_cases hs : m.contains .symbolic = true
  · exact leads_symbolically (hm ▸ hs) (Value.undefined_leads bits)
  · rw [Bool.not_eq_true] at hs
    obtain ⟨hsame, hnone⟩ := Value.undefined_inactive hs bits w.state.machine.symbolic
    exact leads_symbolically_of_eq hsame fun v hv => Value.over_of_none (hnone v hv)

/-! ### Loads -/

/-- What the machine knows of a word in memory is its number and a new variable. -/
theorem machineReadMemory_leads (address : Value) (bits : Nat) :
    Leads Effect w (onMachine (Machine.readMemory address bits))
      (OnSuccess fun V v => v.Over V) := by
  rw [onMachine_readMemory]
  refine leads_check fun _ _ => leads_check fun _ _ => leads_getExcept ?_
  refine Leads.bindExcept (P := fun _ _ => True) ?_ fun _ w' h _ => ?_
  · split
    · exact ⟨w.widths, .single (.note _), fun _ _ => trivial⟩
    · exact leads_pure fun _ _ => trivial
  · refine (undefined_leads (active_of_effects h) bits).bindExcept fun v w'' _ hv => leads_pure ?_
    rintro _ ⟨⟩
    exact hv

theorem over_byteTerm {V : Widths} {base : Term} (hb : base.Over V) (offset : Nat) :
    (byteTerm base offset).Over V := Term.over_mkBinary _ _ hb trivial

theorem readLogByte_leads (hw : Closed w) (hs : w.state.machine.active.contains .symbolic = true)
    {base : Term} (hb : base.Over w.widths) (offset : Nat) :
    Leads Effect w (readLogByte base offset) (OnSuccess fun V v => v.Over V) :=
  leads_getExcept <| leads_symbolically hs <|
    MemoryLog.readByte_leads _ _ (over_byteTerm hb offset) hw.cells

theorem readLogBytes_leads (hw : Closed w) (hs : w.state.machine.active.contains .symbolic = true)
    {base : Term} (hb : base.Over w.widths) (count : Nat) :
    Leads Effect w (readLogBytes base count) (OnSuccess fun V v => v.Over V) := by
  have hbyte {w' : World (Engine σ)} (h : ReflTransGen Effect w w') (i : Nat) :
      Leads Effect w' (readLogByte base i) (OnSuccess fun V v => v.Over V) :=
    readLogByte_leads (closed_of_effects h hw) (active_of_effects h ▸ hs)
      (hb.mono (sub_of_effects h)) i
  refine (hbyte .refl 0).bindExcept fun first w₁ h₁ hfirst => ?_
  refine leads_foldlM _ hfirst fun lo i w₂ h₂ hlo => ?_
  refine (hbyte (h₁.trans h₂) (i + 1)).bindExcept fun byte w₃ h₃ hhi => leads_getExcept ?_
  exact leads_liftExcept fun v hv => Value.over_concat (hlo.mono (sub_of_effects h₃)) hhi hv

/-- **A load** gives a value over the variables that were given out. -/
theorem readMemory_leads (hw : Closed w) {address : Value} (ha : address.Over w.widths)
    (bits : Nat) : Leads Effect w (readMemory address bits) (OnSuccess fun V v => v.Over V) := by
  refine leads_getExcept ?_
  split
  · exact machineReadMemory_leads address bits
  refine leads_check fun _ _ => leads_check fun _ _ => ?_
  split
  · exact machineReadMemory_leads address bits
  rename_i hs
  have hs : w.state.machine.active.contains .symbolic = true := by simpa using hs
  split
  · exact (leads_note _ _).bindExcept fun _ _ _ _ => machineReadMemory_leads address bits
  · rename_i base hbase
    have hb := Value.over_ensureTerm ha hbase
    refine (readLogBytes_leads hw hs hb _).bindExcept fun v w' h hv => leads_getExcept ?_
    refine leads_pure ?_
    rintro _ ⟨⟩
    refine Value.Over.restrict ?_ _
    -- the number off the bus has no term
    split
    · split
      · exact hv
      · exact hv
    · exact hv

/-! ### Expressions -/

theorem xor_leads (hu : u.Over w.widths) (hv : v.Over w.widths) :
    Leads Effect w (xor u v) (OnSuccess fun V v => v.Over V) := by
  refine leads_getExcept <| leads_check fun r hr => ?_
  have hr := Value.over_binary hu hv hr
  by_cases hs : w.state.machine.active.contains .symbolic = true
  · exact leads_symbolically hs (leads_lift (Value.refineZero_leads hr))
  · rw [Bool.not_eq_true] at hs
    have hrefine := Value.refineZero_inactive hs r w.state.machine.symbolic
    refine leads_symbolically_of_eq (congrArg Prod.snd hrefine) fun a ha => ?_
    obtain rfl := Except.ok.inj ((congrArg (Except.ok ∘ Prod.fst) hrefine).symm.trans ha)
    exact hr

theorem combine_leads (op : BinaryOp) (hu : u.Over w.widths) (hv : v.Over w.widths) :
    Leads Effect w (combine op u v) (OnSuccess fun V v => v.Over V) := by
  cases op with
  | xor => exact xor_leads hu hv
  | _ => exact leads_getExcept (leads_liftExcept fun r hr => Value.over_binary hu hv hr)

/-- **An evaluation** gives a value over the variables that were given out. By induction on the
expression: the values of its operands stay good while the later ones are evaluated. -/
theorem evaluate_leads (hw : Closed w) (x : Expr) :
    Leads Effect w (evaluate x) (OnSuccess fun V v => v.Over V) := by
  induction x generalizing w with
  | const value size =>
    exact leads_getExcept (leads_liftExcept fun v hv => Value.over_number hv)
  | register name =>
    refine leads_getExcept (leads_liftExcept fun v hv => ?_)
    unfold Machine.readNamed at hv
    cases hr : Register.named name with
    | error fault =>
      rw [hr] at hv
      cases hv
    | ok r =>
      rw [hr] at hv
      obtain rfl := Except.ok.inj hv
      exact (hw.registers r).restrict _
  | memory size a ih =>
    exact (ih hw).bindExcept fun u w₁ h₁ hu => readMemory_leads (closed_of_effects h₁ hw) hu size
  | binary op a b iha ihb =>
    refine (iha hw).bindExcept fun u w₁ h₁ hu => ?_
    refine (ihb (closed_of_effects h₁ hw)).bindExcept fun v w₂ h₂ hv => ?_
    exact combine_leads op (hu.mono (sub_of_effects h₂)) hv
  | invert a ih =>
    refine (ih hw).bindExcept fun u w₁ h₁ hu => leads_getExcept ?_
    exact leads_liftExcept fun v hv => Value.over_invert hu hv
  | slice a lo hi ih =>
    refine (ih hw).bindExcept fun u w₁ h₁ hu => leads_getExcept ?_
    exact leads_liftExcept fun v hv => Value.over_slice hu hv
  | concat lo hi ihl ihh =>
    refine (ihl hw).bindExcept fun u w₁ h₁ hu => ?_
    refine (ihh (closed_of_effects h₁ hw)).bindExcept fun v w₂ h₂ hv => leads_getExcept ?_
    exact leads_liftExcept fun r hr => Value.over_concat (hu.mono (sub_of_effects h₂)) hv hr
  | isZero a ih =>
    refine (ih hw).bindExcept fun u w₁ h₁ hu => leads_getExcept ?_
    exact leads_liftExcept fun v hv => Value.over_isZero hu hv
  | ite c t f ihc iht ihf =>
    refine (ihc hw).bindExcept fun b w₁ h₁ hb => ?_
    refine (iht (closed_of_effects h₁ hw)).bindExcept fun u w₂ h₂ hu => ?_
    refine (ihf (closed_of_effects (h₁.trans h₂) hw)).bindExcept fun v w₃ h₃ hv => ?_
    refine leads_getExcept (leads_liftExcept fun r hr => Value.over_ite ?_ ?_ hv hr)
    · exact hb.mono (sub_of_effects (h₂.trans h₃))
    · exact hu.mono (sub_of_effects h₃)
  | undefined size => exact leads_getExcept (undefined_leads rfl size)

/-! ### Stores -/

theorem effects_putBytes {V : Widths} {e : Engine σ} {writes : List (Nat × UInt8)}
    (h : e.machine.active.contains .concrete = false → writes = []) :
    ReflTransGen Effect ⟨V, e⟩ ⟨V, { e with machine := e.machine.putBytes writes }⟩ := by
  by_cases hc : e.machine.active.contains .concrete = true
  · exact .single (.store writes hc)
  · rw [Bool.not_eq_true] at hc
    rw [h hc, Machine.putBytes_nil]

theorem machineWriteMemory_leads (address data : Value) :
    Leads Effect w (onMachine (Machine.writeMemory address data))
      (OnSuccess fun _ _ => True) := by
  obtain ⟨r, writes, hnone, hwrite⟩ :=
    Machine.writeMemory_putBytes (σ := σ) address data w.state.machine.active
  refine ⟨w.widths, ?_, fun _ _ => trivial⟩
  unfold onMachine
  rw [hwrite w.state.machine rfl]
  exact effects_putBytes hnone

theorem over_cellsOf {V : Widths} {base : Term} {data : Value} {cells : List Cell}
    (hb : base.Over V) (hd : data.Over V) (h : cellsOf m base data = .ok cells) :
    ∀ c ∈ cells, c.Over V := by
  intro c hc
  obtain ⟨i, -, hmake⟩ := exists_of_mapM h c hc
  obtain ⟨byte, hslice, hmake⟩ := bind_eq_ok hmake
  exact Cell.over_make (over_byteTerm hb i) (Value.over_slice hd hslice) hmake

/-- The store of the concrete domain; a refusal is a result. -/
theorem storeConcrete_leads {address data : Value} (hwidth : checkAccessWidth data.bits = .ok ())
    (haddress : address.checkOperand "address" = .ok ()) (hdata : data.checkOperand "data" = .ok ())
    (hc : w.state.machine.active.contains .concrete = true) :
    Leads Effect w (onMachine (ExceptT.lift
        (withActive .concreteOnly (Machine.writeMemory address data)).run))
      (OnSuccess fun _ _ => True) := by
  obtain ⟨r, hr⟩ := storeConcrete_eq_putBytes (σ := σ) hwidth haddress hdata
  refine ⟨w.widths, ?_, fun _ _ => trivial⟩
  rw [hr]
  exact .single (.store _ hc)

/-- **A store** logs cells over the variables that were given out. -/
theorem writeMemory_leads {address data : Value} (ha : address.Over w.widths)
    (hd : data.Over w.widths) :
    Leads Effect w (writeMemory address data) (OnSuccess fun _ _ => True) := by
  refine leads_getExcept ?_
  split
  · exact machineWriteMemory_leads address data
  refine leads_check fun _ hwidth => leads_check fun _ haddress => leads_check fun _ hdata => ?_
  dsimp only
  -- the log comes last, whatever becomes of the store on the bus
  generalize hact : (if w.state.machine.active.contains .symbolic then _ else pure () :
    EngineM σ Unit) = log
  have hlog {w' : World (Engine σ)} (h : ReflTransGen Effect w w') :
      Leads Effect w' log (OnSuccess fun _ _ => True) := by
    have hsub := sub_of_effects h
    subst hact
    split
    · rename_i hs
      split
      · exact leads_note _ _
      · rename_i base hbase
        refine leads_check fun cells hcells => ?_
        have hensured : ((data.ensure w.state.machine.active .symbolic).toOption.getD data).Over
            w'.widths := by
          cases hdata : data.ensure w.state.machine.active .symbolic with
          | error fault => exact hd.mono hsub
          | ok word => exact (Value.over_ensure hd hdata).mono hsub
        have hcells := over_cellsOf ((Value.over_ensureTerm ha hbase).mono hsub) hensured hcells
        refine ⟨w'.widths, .single (.log ?_ hcells), fun _ _ => trivial⟩
        rw [active_of_effects h]
        exact hs
    · exact leads_pure fun _ _ => trivial
  split
  · rename_i hc
    refine (storeConcrete_leads hwidth haddress hdata hc).bindExcept fun stored w₁ h₁ _ => ?_
    cases stored with
    | error fault => exact (leads_note _ _).bindExcept fun _ w₂ h₂ _ => hlog (h₁.trans h₂)
    | ok _ => exact hlog h₁
  · exact hlog .refl

/-! ### Statements and instructions -/

theorem leads_write {f : Machine σ → Except Fault (Machine σ)} (r : Register)
    (hf : ∀ machine, f w.state.machine = .ok machine →
      ∃ v : Value, v.Over w.widths ∧ w.state.machine.writeRegister r v = .ok machine) :
    Leads Effect w (updateMachine f) (OnSuccess fun _ _ => True) := by
  cases hm : f w.state.machine with
  | error fault =>
    refine ⟨w.widths, ?_, fun _ _ => trivial⟩
    rw [updateMachine_error hm]
  | ok machine =>
    obtain ⟨v, hv, hwrite⟩ := hf machine hm
    refine ⟨w.widths, ?_, fun _ _ => trivial⟩
    rw [updateMachine_ok hm, Machine.eq_of_writeRegister hwrite]
    exact .single (.write r hv)

/-- **A statement.** -/
theorem perform_leads (hw : Closed w) (s : Statement) :
    Leads Effect w (perform s) (OnSuccess fun _ _ => True) := by
  cases s with
  | setRegister name x =>
    refine (evaluate_leads hw x).bindExcept fun v w₁ h₁ hv => ?_
    cases hr : Register.named name with
    | error fault =>
      refine leads_write .eip fun machine h => ?_
      rw [Machine.writeNamed, hr] at h
      cases h
    | ok r =>
      refine leads_write r fun machine h => ⟨v, hv, ?_⟩
      rw [Machine.writeNamed, hr] at h
      exact h
  | store size address x =>
    refine (evaluate_leads hw address).bindExcept fun a w₁ h₁ ha => ?_
    refine (evaluate_leads (closed_of_effects h₁ hw) x).bindExcept fun v w₂ h₂ hv => ?_
    by_cases hsize : v.bits ≠ size
    · rw [if_pos hsize]
      refine leads_check (x := .error (Fault.storeWidth size v.bits)) fun _ h => ?_
      cases h
    · rw [if_neg hsize]
      exact writeMemory_leads (ha.mono (sub_of_effects h₂)) hv
  | jump target =>
    exact (evaluate_leads hw target).bindExcept fun v w₁ _ hv =>
      leads_write .eip fun _ h => ⟨v, hv, h⟩
  | trap vector =>
    refine (leads_note _ _).bindExcept fun _ w₁ _ _ => ?_
    exact ⟨w₁.widths, .single (.trap vector), fun _ _ => trivial⟩

theorem advance_leads (hw : Closed w) (length : Nat) :
    Leads Effect w (advance length) (OnSuccess fun _ _ => True) := by
  refine leads_write .eip fun machine h => ?_
  obtain ⟨step, hstep, h⟩ := bind_eq_ok h
  obtain ⟨v, hv, h⟩ := bind_eq_ok h
  exact ⟨v, Value.over_binary ((hw.registers .eip).restrict _) (Value.over_number hstep) hv, h⟩

/-- **The run of an instruction** is a sequence of effects, whether it succeeds or fails. -/
theorem run_leads (hw : Closed w) (i : Instruction) :
    Leads Effect w (run i) (OnSuccess fun _ _ => True) := by
  refine leads_getExcept <| leads_check fun _ _ => Leads.bindExcept (P := fun _ _ => True)
    (leads_forM i.statements fun s _ w₁ h₁ => perform_leads (closed_of_effects h₁ hw) s)
    fun _ w₁ h₁ _ => ?_
  cases i.jumps with
  | true => exact leads_pure fun _ _ => trivial
  | false => exact advance_leads (closed_of_effects h₁ hw) i.length

/-- What holds of sequences of effects holds of the run of an instruction. -/
theorem run_effects (i : Instruction) (e : Engine σ) :
    ∃ V, ReflTransGen Effect ⟨fun _ _ => True, e⟩ ⟨V, (run i e).2⟩ := by
  obtain ⟨V, heffects, -⟩ := run_leads (closed_all e) i
  exact ⟨V, heffects⟩

end Engine
end Lockstep
