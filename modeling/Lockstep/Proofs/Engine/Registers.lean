/-
# What a step leaves in registers

A statement that succeeds sets at most one register, and one that fails sets
none. The stores and cells of a step that fails are taken back, but what its
statements have set is not: a register holds what the last completed statement
that sets it has put there. This goes for the address of the next instruction
too, so it is where it was only if no completed statement has set it.

Key definitions: `Statement.assigns`, `Engine.HoldsBehind`, `Engine.StopsAt`.
Key theorems: `Engine.perform_ok_get`, `Engine.registers_of_failed`, `Engine.holdsBehind_of_forM`,
`Engine.HoldsBehind.eq_of_not_sets`, `Engine.exists_stopsAt`, `Engine.step_failed_registers`.
-/
import Lockstep.Proofs.Engine.Effects
import Lockstep.Proofs.Engine.Logged

namespace Lockstep

/-- The register that a statement sets, and the expression whose value it takes. -/
def Statement.assigns : Statement → Option (Register × Expr)
  | setRegister name x => (Register.ofName? name).map (·, x)
  | jump target => some (.eip, target)
  | _ => none

/-- Does a statement set a register? -/
def Statement.Sets (s : Statement) (r : Register) : Prop := ∃ x, s.assigns = some (r, x)

namespace Engine

variable {σ : Type} [Solver σ] {e e' : Engine σ} {s : Statement} {f : Fault}

/-! ### One statement -/

theorem registers_evaluate (x : Expr) (e : Engine σ) :
    (evaluate x e).2.machine.registers = e.machine.registers := by
  obtain ⟨s, hs⟩ := (evaluate_observes x).frame e
  rw [hs]
  rfl

theorem active_evaluate (x : Expr) (e : Engine σ) :
    (evaluate x e).2.machine.active = e.machine.active := by
  obtain ⟨s, hs⟩ := (evaluate_observes x).frame e
  rw [hs]
  rfl

/-- The value of an expression, put in a register by what follows. -/
theorem updateMachine_write {x : Expr} {g : Value → Machine σ → Except Fault (Machine σ)}
    {r : Register} (hg : ∀ v m m', g v m = .ok m' → m.writeRegister r v = .ok m')
    (h : (evaluate x >>= fun v => updateMachine (g v)) e = (.ok (), e')) :
    ∃ v, (evaluate x e).1 = .ok v ∧ ∃ e₁ : Engine σ, e₁.machine.registers = e.machine.registers ∧
      e₁.machine.active = e.machine.active ∧ e' = e₁.written r v := by
  obtain ⟨v, e₁, hv, h⟩ := apply_bind_eq_ok h
  have hregisters := registers_evaluate x e
  have hactive := active_evaluate x e
  rw [hv] at hregisters hactive
  refine ⟨v, by rw [hv], e₁, hregisters, hactive, ?_⟩
  cases hm : g v e₁.machine with
  | error fault =>
    rw [updateMachine_error hm] at h
    cases h
  | ok m =>
    rw [updateMachine_ok hm] at h
    obtain ⟨-, rfl⟩ := Prod.mk.inj h
    rw [Machine.eq_of_writeRegister (hg v _ m hm)]
    rfl

omit [Solver σ] in
/-- A change of the machine that is refused leaves the engine. -/
theorem updateMachine_failed {g : Machine σ → Except Fault (Machine σ)}
    (h : updateMachine g e = (.error f, e')) : e' = e := by
  cases hm : g e.machine with
  | error fault =>
    rw [updateMachine_error hm] at h
    exact (Prod.mk.inj h).2.symm
  | ok m =>
    rw [updateMachine_ok hm] at h
    cases h

theorem registers_write_failed {x : Expr} {g : Value → Machine σ → Except Fault (Machine σ)}
    (h : (evaluate x >>= fun v => updateMachine (g v)) e = (.error f, e')) :
    e'.machine.registers = e.machine.registers := by
  have hregisters := registers_evaluate x e
  rcases hv : evaluate x e with ⟨fault | v, e₁⟩
  · rw [hv] at hregisters
    rw [apply_bind_error hv] at h
    obtain ⟨-, rfl⟩ := Prod.mk.inj h
    exact hregisters
  · rw [hv] at hregisters
    rw [apply_bind_ok hv] at h
    rw [updateMachine_failed h]
    exact hregisters

/-- A store statement leaves the registers, whether it succeeds or fails. -/
theorem registers_store (size : Nat) (address x : Expr) (e : Engine σ) :
    (perform (.store size address x) e).2.machine.registers = e.machine.registers := by
  have haddress := registers_evaluate address e
  show ((evaluate address >>= _ : EngineM σ Unit) e).2.machine.registers = _
  rcases ha : evaluate address e with ⟨fault | a, e₁⟩
  · rw [ha] at haddress
    rw [apply_bind_error ha]
    exact haddress
  rw [ha] at haddress
  rw [apply_bind_ok ha]
  have hvalue := registers_evaluate x e₁
  rcases hv : evaluate x e₁ with ⟨fault | v, e₂⟩
  · rw [hv] at hvalue
    rw [apply_bind_error hv]
    exact hvalue.trans haddress
  rw [hv] at hvalue
  rw [apply_bind_ok hv]
  by_cases hsize : v.bits ≠ size
  · rw [if_pos hsize]
    exact hvalue.trans haddress
  · rw [if_neg hsize]
    exact (registers_writeMemory a v e₂).trans (hvalue.trans haddress)

/-- **A statement that succeeds** sets the active parts of its register to its value, and it
leaves every other one. -/
theorem perform_ok_get (h : perform s e = (.ok (), e')) (r : Register) :
    (∃ x v, s.assigns = some (r, x) ∧ (evaluate x e).1 = .ok v ∧
      e'.machine.registers.get r = (e.machine.registers.get r).takeParts v e.machine.active) ∨
    ¬ s.Sets r ∧ e'.machine.registers.get r = e.machine.registers.get r := by
  have hwritten {q : Register} {x : Expr} (hassigns : s.assigns = some (q, x))
      (hwrite : ∃ v, (evaluate x e).1 = .ok v ∧ ∃ e₁ : Engine σ,
        e₁.machine.registers = e.machine.registers ∧ e₁.machine.active = e.machine.active ∧
          e' = e₁.written q v) :
      (∃ x v, s.assigns = some (r, x) ∧ (evaluate x e).1 = .ok v ∧
        e'.machine.registers.get r = (e.machine.registers.get r).takeParts v e.machine.active) ∨
      ¬ s.Sets r ∧ e'.machine.registers.get r = e.machine.registers.get r := by
    obtain ⟨v, hv, e₁, hregisters, hactive, rfl⟩ := hwrite
    rw [get_written, hregisters, hactive]
    by_cases hr : r = q
    · subst hr
      exact .inl ⟨x, v, hassigns, hv, if_pos rfl⟩
    · refine .inr ⟨?_, if_neg hr⟩
      rintro ⟨y, hy⟩
      rw [hassigns] at hy
      exact hr (Prod.mk.inj (Option.some.inj hy)).1.symm
  have hnone (hassigns : s.assigns = none)
      (hsame : e'.machine.registers = e.machine.registers) :
      ¬ s.Sets r ∧ e'.machine.registers.get r = e.machine.registers.get r := by
    refine ⟨?_, by rw [hsame]⟩
    rintro ⟨y, hy⟩
    rw [hassigns] at hy
    cases hy
  cases s with
  | setRegister name x =>
    cases hname : Register.ofName? name with
    | none =>
      obtain ⟨v, e₁, -, hfail⟩ := apply_bind_eq_ok h
      have hrefused : e₁.machine.writeNamed name v = .error (.unknownRegister name) := by
        unfold Machine.writeNamed Register.named
        rw [hname]
        rfl
      rw [updateMachine_error hrefused] at hfail
      cases hfail
    | some q =>
      refine hwritten (q := q) (x := x) (by simp [Statement.assigns, hname]) ?_
      refine updateMachine_write (fun v m m' hm => ?_) h
      unfold Machine.writeNamed Register.named at hm
      rw [hname] at hm
      exact hm
  | store size address x =>
    refine .inr (hnone rfl ?_)
    have hsame := registers_store size address x e
    rwa [h] at hsame
  | jump target => exact hwritten rfl (updateMachine_write (fun _ _ _ hm => hm) h)
  | trap vector =>
    refine .inr (hnone rfl ?_)
    obtain ⟨-, rfl⟩ := Prod.mk.inj h
    rfl

/-- **A statement that fails** leaves the registers. -/
theorem registers_of_failed (h : perform s e = (.error f, e')) :
    e'.machine.registers = e.machine.registers := by
  cases s with
  | setRegister name x => exact registers_write_failed h
  | store size address x =>
    have hsame := registers_store size address x e
    rwa [h] at hsame
  | jump target => exact registers_write_failed h
  | trap vector => cases h

theorem active_perform (s : Statement) (e : Engine σ) :
    (perform s e).2.machine.active = e.machine.active := by
  obtain ⟨V, heffects, -⟩ := perform_leads (closed_all e) s
  exact active_of_effects heffects

/-! ### Statements in order -/

/-- What a register holds behind statements that succeed: what it held, if none of them sets it,
and otherwise, in the active domains, what the last one that sets it has put there. -/
inductive HoldsBehind (r : Register) (e : Engine σ) : List Statement → Value → Prop
  | kept {done : List Statement} {u : Value} (hnone : ∀ s ∈ done, ¬ s.Sets r)
    (hu : u = e.machine.registers.get r) : HoldsBehind r e done u
  | set {before after : List Statement} {s : Statement} {x : Expr} {u v : Value} {e₁ : Engine σ}
    (hassigns : s.assigns = some (r, x)) (hafter : ∀ t ∈ after, ¬ t.Sets r)
    (hbefore : before.forM perform e = (.ok (), e₁)) (hvalue : (evaluate x e₁).1 = .ok v)
    (hu : u = (e₁.machine.registers.get r).takeParts v e.machine.active) :
    HoldsBehind r e (before ++ s :: after) u

theorem forM_append_ok {before after : List Statement}
    (h : (before ++ after).forM perform e = (.ok (), e')) :
    ∃ e₁, before.forM perform e = (.ok (), e₁) ∧ after.forM perform e₁ = (.ok (), e') := by
  rw [List.forM_eq_forM, List.forM_append] at h
  obtain ⟨_, e₁, hbefore, hafter⟩ := apply_bind_eq_ok h
  exact ⟨e₁, hbefore, hafter⟩

theorem active_forM {ss : List Statement} (h : ss.forM perform e = (.ok (), e')) :
    e'.machine.active = e.machine.active := by
  induction ss generalizing e with
  | nil =>
    obtain ⟨-, rfl⟩ := Prod.mk.inj h
    rfl
  | cons s ss ih =>
    obtain ⟨_, e₁, hs, hss⟩ := apply_bind_eq_ok h
    have hactive := active_perform s e
    rw [hs] at hactive
    exact (ih hss).trans hactive

/-- **What a register holds behind statements that succeed**, by induction from the last one. -/
theorem holdsBehind_of_forM (r : Register) {done : List Statement}
    (h : done.forM perform e = (.ok (), e')) :
    HoldsBehind r e done (e'.machine.registers.get r) := by
  induction done using List.reverseRecOn generalizing e' with
  | nil =>
    obtain ⟨-, rfl⟩ := Prod.mk.inj h
    exact .kept (List.forall_mem_nil _) rfl
  | append_singleton done s ih =>
    obtain ⟨e₁, hdone, hlast⟩ := forM_append_ok h
    obtain ⟨_, e₂, hs, hnil⟩ := apply_bind_eq_ok (x := perform s) hlast
    obtain ⟨-, rfl⟩ := Prod.mk.inj hnil
    rcases perform_ok_get hs r with ⟨x, v, hassigns, hv, hget⟩ | ⟨hsets, hget⟩
    · rw [active_forM hdone] at hget
      exact .set hassigns (List.forall_mem_nil _) hdone hv hget
    · have hsets : ∀ t ∈ [s], ¬ t.Sets r := List.forall_mem_singleton.2 hsets
      cases ih hdone with
      | kept hnone hu => exact .kept (List.forall_mem_append.2 ⟨hnone, hsets⟩) (hget.trans hu)
      | set hassigns hafter hbefore hvalue hu =>
        rw [List.append_assoc, List.cons_append]
        have hafter := List.forall_mem_append.2 ⟨hafter, hsets⟩
        exact .set hassigns hafter hbefore hvalue (hget.trans hu)

/-- A register that no completed statement sets holds what it held. -/
theorem HoldsBehind.eq_of_not_sets {r : Register} {done : List Statement} {u : Value}
    (h : HoldsBehind r e done u) (hnone : ∀ s ∈ done, ¬ s.Sets r) :
    u = e.machine.registers.get r := by
  cases h with
  | kept _ hu => exact hu
  | @set before after s x _ _ _ hassigns =>
    have hmem : s ∈ before ++ s :: after := List.mem_append_right before List.mem_cons_self
    exact absurd ⟨x, hassigns⟩ (hnone s hmem)

/-! ### Steps that fail -/

/-- Why a step stops with a fault behind the statements that it completed, and on which engine:
at its check of the address, at a statement, or as it goes on to the next instruction. -/
inductive StopsAt (i : Instruction) (f : Fault) (e : Engine σ) :
    List Statement → Engine σ → Prop
  | check (h : checkAddress e.machine i.address = .error f) : StopsAt i f e [] e
  | statement {done rest : List Statement} {s : Statement} {e₁ : Engine σ}
    (hsplit : i.statements = done ++ s :: rest) (hdone : done.forM perform e = (.ok (), e₁))
    (hfails : (perform s e₁).1 = .error f) : StopsAt i f e done e₁
  | advance {e₁ : Engine σ} (hjumps : i.jumps = false)
    (hdone : i.statements.forM perform e = (.ok (), e₁))
    (hfails : (Engine.advance i.length e₁).1 = .error f) : StopsAt i f e i.statements e₁

/-- Statements that fail complete some of them, and the next one fails and sets no register. -/
theorem exists_failing {ss : List Statement} (h : ss.forM perform e = (.error f, e')) :
    ∃ done s rest e₁, ss = done ++ s :: rest ∧ done.forM perform e = (.ok (), e₁) ∧
      (perform s e₁).1 = .error f ∧ e'.machine.registers = e₁.machine.registers := by
  induction ss generalizing e with
  | nil => cases h
  | cons s ss ih =>
    have hcons : (perform s >>= fun _ => ss.forM perform) e = (.error f, e') := h
    rcases hs : perform s e with ⟨fault | _, e₁⟩
    · rw [apply_bind_error hs] at hcons
      obtain ⟨hfault, rfl⟩ := Prod.mk.inj hcons
      refine ⟨[], s, ss, e, rfl, rfl, ?_, registers_of_failed hs⟩
      rw [hs, hfault]
    · rw [apply_bind_ok hs] at hcons
      obtain ⟨done, t, rest, e₂, rfl, hdone, hfails, hregisters⟩ := ih hcons
      exact ⟨s :: done, t, rest, e₂, rfl, (apply_bind_ok hs _).trans hdone, hfails, hregisters⟩

/-- **A run that fails** stops somewhere, and it has the registers of the engine there. -/
theorem exists_stopsAt {i : Instruction} (h : run i e = (.error f, e')) :
    ∃ done e₁, StopsAt i f e done e₁ ∧ done.forM perform e = (.ok (), e₁) ∧
      e'.machine.registers = e₁.machine.registers := by
  unfold run at h
  rw [apply_get_bind] at h
  cases hcheck : checkAddress e.machine i.address with
  | error fault =>
    rw [apply_check_error hcheck] at h
    obtain ⟨hfault, rfl⟩ := Prod.mk.inj h
    obtain rfl := Except.error.inj hfault
    exact ⟨[], e, .check hcheck, rfl, rfl⟩
  | ok _ =>
    rw [apply_check_ok hcheck] at h
    rcases hall : i.statements.forM perform e with ⟨fault | _, e₁⟩
    · rw [apply_bind_error hall] at h
      obtain ⟨hfault, rfl⟩ := Prod.mk.inj h
      obtain rfl := Except.error.inj hfault
      obtain ⟨done, s, rest, e₁, hsplit, hdone, hfails, hregisters⟩ := exists_failing hall
      exact ⟨done, e₁, .statement hsplit hdone hfails, hdone, hregisters⟩
    · rw [apply_bind_ok hall] at h
      cases hjumps : i.jumps with
      | true =>
        rw [hjumps] at h
        cases h
      | false =>
        rw [hjumps] at h
        have hadvance : advance i.length e₁ = (.error f, e') := h
        refine ⟨i.statements, e₁, .advance hjumps hall (by rw [hadvance]), hall, ?_⟩
        rw [updateMachine_failed hadvance]

/-- **What a failed step leaves in registers.** The step has completed some of its statements and
stops behind them. A register that a completed statement sets has the value of the last one that
does, in every active domain. The address of the next instruction is the one before the step if
no completed statement sets it. -/
theorem step_failed_registers {i : Instruction} (h : step i e = (.error f, e')) :
    ∃ done e₁, StopsAt i f e.beginWrites done e₁ ∧
      (∀ r, HoldsBehind r e.beginWrites done (e'.machine.registers.get r)) ∧
      ((∀ s ∈ done, ¬ s.Sets .eip) →
        e'.machine.registers.get .eip = e.machine.registers.get .eip) := by
  unfold step at h
  rcases hrun : run i e.beginWrites with ⟨fault | _, e₂⟩
  · rw [hrun] at h
    obtain ⟨hfault, rfl⟩ := Prod.mk.inj h
    obtain rfl := Except.error.inj hfault
    obtain ⟨done, e₁, hstops, hdone, hregisters⟩ := exists_stopsAt hrun
    have hholds (r : Register) : HoldsBehind r e.beginWrites done
        ((e₂.discardWrites e.log.size).machine.registers.get r) := by
      show HoldsBehind r e.beginWrites done (e₂.machine.registers.get r)
      rw [hregisters]
      exact holdsBehind_of_forM r hdone
    exact ⟨done, e₁, hstops, hholds, fun hnone => (hholds .eip).eq_of_not_sets hnone⟩
  · rw [hrun] at h
    cases h

/-- A step sets `eax`, stores a byte, jumps and then fails at a register of another width. -/
theorem step_failed_registers_jump :
    let e : Engine Backend := (trigger 0 (Engine.start .empty {} (some (builtIn {})))).2
    let i : Instruction := ⟨0, 2, .other, "",
      [.setRegister "eax" (.const 7 32), .store 8 (.const 64 32) (.const 17 8),
        .jump (.const 1024 32), .setRegister "eax" (.const 1 16)]⟩
    (step i e).1 = .error (.registerWidth 16 .eax) ∧
      ∃ done e₁, StopsAt i (.registerWidth 16 .eax) e.beginWrites done e₁ ∧
        (∀ r, HoldsBehind r e.beginWrites done ((step i e).2.machine.registers.get r)) ∧
        ((∀ s ∈ done, ¬ s.Sets .eip) →
          (step i e).2.machine.registers.get .eip = e.machine.registers.get .eip) := by
  intro e i
  have hfault : (step i e).1 = .error (.registerWidth 16 .eax) := by decide +kernel
  exact ⟨hfault, step_failed_registers (Prod.ext hfault rfl)⟩

/-- **The address moves with a failed step.** A step jumps and then fails at a register of another
width: the address of the next instruction is the target of the jump in every domain. -/
theorem step_failed_moves :
    let e : Engine Backend := (trigger 0 (Engine.start .empty {} (some (builtIn {})))).2
    let i : Instruction := ⟨0, 2, .other, "",
      [.jump (.const 1024 32), .setRegister "eax" (.const 1 16)]⟩
    (step i e).1 = .error (.registerWidth 16 .eax) ∧
      e.machine.registers.get .eip = ⟨32, some 0, some ⟨0, 0⟩, some (.const 32 0)⟩ ∧
      (step i e).2.machine.registers.get .eip =
        ⟨32, some 1024, some ⟨1024, 1024⟩, some (.const 32 1024)⟩ := by
  intro e i
  refine ⟨?_, ?_, ?_⟩
  · decide +kernel
  · decide +kernel
  · decide +kernel

end Engine
end Lockstep
