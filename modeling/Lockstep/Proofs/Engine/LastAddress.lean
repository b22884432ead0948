/-
# The last value of the next address

A step that succeeds has set the address of the next instruction: a jump did,
or the step went on behind the instruction. The last value that was put there
decides what the active domains know of the address. The other domains know of
it what they knew before the step, for the address that the governor sets
before a triggered instruction goes to the same domains.

Key definitions: `Machine.successor`, `Engine.SetTo`, `Engine.assigned`, `Engine.goesTo?`,
`Engine.lastAddress?`.
Key theorems: `Engine.SetTo.trans`, `Engine.perform_setTo`, `Engine.assigned_of_forM`,
`Engine.run_setTo`, `Engine.execute_setTo`.
-/
import Lockstep.Proofs.Engine.ActiveParts
import Lockstep.Proofs.Engine.Calls

namespace Lockstep

/-- Parts that are taken over twice are those of the second time. -/
theorem Value.takeParts_takeParts (s u v : Value) (taken : DomainSet) :
    (s.takeParts u taken).takeParts v taken = s.takeParts v taken := by
  obtain ⟨c, i, y⟩ := taken
  cases c <;> cases i <;> cases y <;> rfl

theorem Machine.bits_of_writeRegister {σ : Type} {m m' : Machine σ} {r : Register} {v : Value}
    (h : m.writeRegister r v = .ok m') : v.bits = (m.registers.get r).bits := by
  unfold writeRegister at h
  split at h
  · obtain ⟨merged, hmerged, -⟩ := bind_eq_ok h
    unfold Value.overlay at hmerged
    split at hmerged
    · assumption
    · cases hmerged
  · cases h

/-- The address behind an instruction of the given length, as the active domains know it. -/
def Machine.successor {σ : Type} (m : Machine σ) (length : Nat) : Except Fault Value := do
  let length ← Value.number m.active addressBits length
  Value.binary m.active .add (m.readRegister .eip) length

namespace Engine

variable {σ : Type} {e e' e₁ : Engine σ} {r : Register} {u v : Value}

/-! ### Registers that are set -/

/-- Does a register of the second engine have the parts of a value, which are parts of active
domains only, and beside them what the inactive domains knew of it in the first engine? -/
structure SetTo (e : Engine σ) (r : Register) (v : Value) (e' : Engine σ) : Prop where
  bits : v.bits = (e.machine.registers.get r).bits
  parts : v.PartsIn e.machine.active
  register :
    e'.machine.registers.get r = (e.machine.registers.get r).takeParts v e.machine.active

/-- A register that is set twice in the same domains is set to the second value. -/
theorem SetTo.trans (h : e.SetTo r u e₁) (hactive : e₁.machine.active = e.machine.active)
    (h' : e₁.SetTo r v e') : e.SetTo r v e' := by
  obtain ⟨hbits, hparts, hregister⟩ := h'
  rw [hactive] at hparts hregister
  rw [h.register] at hbits hregister
  exact ⟨hbits, hparts, hregister.trans (Value.takeParts_takeParts _ _ _ _)⟩

theorem SetTo.of_kept (hregister : e₁.machine.registers.get r = e.machine.registers.get r)
    (hactive : e₁.machine.active = e.machine.active) (h : e₁.SetTo r v e') : e.SetTo r v e' := by
  obtain ⟨hbits, hparts, hset⟩ := h
  rw [hactive] at hparts hset
  rw [hregister] at hbits hset
  exact ⟨hbits, hparts, hset⟩

theorem SetTo.congr {e'' : Engine σ} (h : e.SetTo r v e')
    (hregister : e''.machine.registers.get r = e'.machine.registers.get r) : e.SetTo r v e'' :=
  ⟨h.bits, h.parts, hregister.trans h.register⟩

theorem setTo_of_writeRegister {m : Machine σ} (hparts : v.PartsIn e.machine.active)
    (h : e.machine.writeRegister r v = .ok m) : e.SetTo r v { e with machine := m } := by
  refine ⟨Machine.bits_of_writeRegister h, hparts, ?_⟩
  rw [Machine.eq_of_writeRegister h]
  exact (get_written e r r v).trans (if_pos rfl)

theorem updateMachine_eq_ok {f : Machine σ → Except Fault (Machine σ)}
    (h : updateMachine f e = (.ok (), e')) :
    ∃ m, f e.machine = .ok m ∧ e' = { e with machine := m } := by
  cases hm : f e.machine with
  | error fault =>
    rw [updateMachine_error hm] at h
    cases h
  | ok m =>
    rw [updateMachine_ok hm] at h
    exact ⟨m, rfl, (Prod.mk.inj h).2.symm⟩

theorem writeAddress_setTo {address : Nat} (h : writeAddress address e = (.ok (), e')) :
    e'.machine.active = e.machine.active ∧ ∃ v, e.SetTo .eip v e' := by
  obtain ⟨m, hm, rfl⟩ := updateMachine_eq_ok h
  obtain ⟨v, hv, hwrite⟩ := bind_eq_ok hm
  refine ⟨?_, v, setTo_of_writeRegister (Value.partsIn_number hv) hwrite⟩
  rw [Machine.eq_of_writeRegister hwrite]

/-- Going on sets the address to the one behind the instruction. -/
theorem advance_setTo {length : Nat} (h : advance length e = (.ok (), e')) :
    ∃ v, e.machine.successor length = .ok v ∧ e.SetTo .eip v e' := by
  obtain ⟨m, hm, rfl⟩ := updateMachine_eq_ok h
  obtain ⟨n, hn, hm⟩ := bind_eq_ok hm
  obtain ⟨v, hv, hwrite⟩ := bind_eq_ok hm
  refine ⟨v, ?_, setTo_of_writeRegister (Value.partsIn_binary hv) hwrite⟩
  unfold Machine.successor
  rw [hn]
  exact hv

/-! ### Statements -/

variable [Solver σ] {s : Statement} {ss : List Statement} {i : Instruction}

/-- The value of a statement that succeeds has the width of the register that it sets. -/
theorem bits_of_perform {x : Expr} (h : perform s e = (.ok (), e'))
    (hassigns : s.assigns = some (r, x)) (hv : (evaluate x e).1 = .ok v) :
    v.bits = (e.machine.registers.get r).bits := by
  have hwritten {f : Value → Machine σ → Except Fault (Machine σ)}
      (hf : ∀ u m m', f u m = .ok m' → m.writeRegister r u = .ok m')
      (h : (evaluate x >>= fun u => updateMachine (f u)) e = (.ok (), e')) :
      v.bits = (e.machine.registers.get r).bits := by
    obtain ⟨u, e₁, hu, h⟩ := apply_bind_eq_ok h
    obtain ⟨m, hm, -⟩ := updateMachine_eq_ok h
    have hregisters := registers_evaluate x e
    rw [hu] at hv hregisters
    obtain rfl := Except.ok.inj hv
    rw [← hregisters]
    exact Machine.bits_of_writeRegister (hf _ _ _ hm)
  cases s with
  | setRegister name y =>
    obtain ⟨q, hname, hpair⟩ := Option.map_eq_some_iff.1 hassigns
    obtain ⟨rfl, rfl⟩ := Prod.mk.inj hpair
    refine hwritten (fun u m m' hm => ?_) h
    unfold Machine.writeNamed Register.named at hm
    rw [hname] at hm
    exact hm
  | jump target =>
    obtain ⟨rfl, rfl⟩ := Prod.mk.inj (Option.some.inj hassigns)
    exact hwritten (fun _ _ _ hm => hm) h
  | store size address y => cases hassigns
  | trap vector => cases hassigns

/-- **A statement that succeeds** sets its register to its value, and it leaves the others. -/
theorem perform_setTo (h : perform s e = (.ok (), e')) (r : Register) :
    (∃ x v, s.assigns = some (r, x) ∧ (evaluate x e).1 = .ok v ∧ e.SetTo r v e') ∨
      ¬ s.Sets r ∧ e'.machine.registers.get r = e.machine.registers.get r := by
  refine (perform_ok_get h r).imp_left ?_
  rintro ⟨x, v, hassigns, hv, hregister⟩
  have hparts : v.PartsIn e.machine.active := partsIn_evaluate (Prod.ext hv rfl)
  exact ⟨x, v, hassigns, hv, bits_of_perform h hassigns hv, hparts, hregister⟩

/-- The value that the last of the statements to set a register sets it to, if one does. -/
def assigned (r : Register) : List Statement → Engine σ → Option Value
  | [], _ => none
  | s :: ss, e =>
    (assigned r ss (perform s e).2).or <|
      s.assigns.bind fun (q, x) => if q = r then (evaluate x e).1.toOption else none

theorem assigned_eq_none (hnone : ∀ s ∈ ss, ¬ s.Sets r) (e : Engine σ) :
    assigned r ss e = none := by
  induction ss generalizing e with
  | nil => rfl
  | cons s ss ih =>
    obtain ⟨hs, hss⟩ := List.forall_mem_cons.1 hnone
    rw [assigned, ih hss, Option.none_or]
    cases hassigns : s.assigns with
    | none => rfl
    | some p => exact if_neg fun hr => hs ⟨p.2, hassigns.trans (congrArg some (Prod.ext hr rfl))⟩

/-- **Statements that succeed** leave a register that none of them sets, and otherwise they set it
to the value of the last one that does. By induction on them: the statements behind the first
one count, and it counts itself if none of them sets the register. -/
theorem assigned_of_forM (r : Register) (h : ss.forM perform e = (.ok (), e')) :
    (∃ v, assigned r ss e = some v ∧ e.SetTo r v e') ∨
      (∀ s ∈ ss, ¬ s.Sets r) ∧ e'.machine.registers.get r = e.machine.registers.get r := by
  induction ss generalizing e with
  | nil =>
    obtain ⟨-, rfl⟩ := Prod.mk.inj h
    exact .inr ⟨List.forall_mem_nil _, rfl⟩
  | cons s ss ih =>
    obtain ⟨_, e₁, hs, hss⟩ := apply_bind_eq_ok h
    have hactive : e₁.machine.active = e.machine.active := by
      have hperform := active_perform s e
      rwa [hs] at hperform
    have hassigned : assigned r (s :: ss) e = (assigned r ss e₁).or
        (s.assigns.bind fun (q, x) => if q = r then (evaluate x e).1.toOption else none) := by
      rw [assigned, hs]
    rcases ih hss with ⟨v, hv, hset⟩ | ⟨hnone, hkept⟩
    · refine .inl ⟨v, ?_, ?_⟩
      · rw [hassigned, hv]
        rfl
      · rcases perform_setTo hs r with ⟨x, u, -, -, hfirst⟩ | ⟨-, hfirst⟩
        · exact hfirst.trans hactive hset
        · exact .of_kept hfirst hactive hset
    · rcases perform_setTo hs r with ⟨x, v, hassigns, hv, hfirst⟩ | ⟨hsets, hfirst⟩
      · refine .inl ⟨v, ?_, hfirst.congr hkept⟩
        rw [hassigned, assigned_eq_none hnone, Option.none_or, hassigns]
        exact (if_pos rfl).trans (congrArg Except.toOption hv)
      · exact .inr ⟨List.forall_mem_cons.2 ⟨hsets, hnone⟩, hkept.trans hfirst⟩

/-! ### Steps -/

/-- The value that a run of an instruction sets the address of the next one to at last: that of
its last statement to set it, or the address behind the instruction if no statement jumps. -/
def goesTo? (e : Engine σ) (i : Instruction) : Option Value :=
  if i.jumps then assigned .eip i.statements e
  else ((i.statements.forM perform e).2.machine.successor i.length).toOption

/-- **A run that succeeds** sets the address of the next instruction. -/
theorem run_setTo (h : run i e = (.ok (), e')) :
    ∃ v, e.goesTo? i = some v ∧ e.SetTo .eip v e' := by
  unfold run at h
  rw [apply_get_bind] at h
  obtain ⟨-, -, h⟩ := apply_check_eq_ok h
  obtain ⟨_, e₁, hall, h⟩ := apply_bind_eq_ok h
  have hassigned := assigned_of_forM .eip hall
  unfold goesTo?
  cases hjumps : i.jumps with
  | true =>
    rw [hjumps] at h
    obtain ⟨-, rfl⟩ := Prod.mk.inj h
    rcases hassigned with hset | ⟨hnone, -⟩
    · exact hset
    · -- a statement jumps, so one sets the address
      obtain ⟨s, hs, hjump⟩ := List.any_eq_true.1 hjumps
      cases s with
      | jump target => exact absurd ⟨target, rfl⟩ (hnone _ hs)
      | _ => cases hjump
  | false =>
    rw [hjumps] at h
    have hadvance : advance i.length e₁ = (.ok (), e') := h
    obtain ⟨v, hv, hset⟩ := advance_setTo hadvance
    refine ⟨v, ?_, ?_⟩
    · rw [hall]
      exact congrArg Except.toOption hv
    · rcases hassigned with ⟨u, -, hfirst⟩ | ⟨-, hkept⟩
      · exact hfirst.trans (active_forM hall) hset
      · exact .of_kept hkept (active_forM hall) hset

/-! ### Instructions -/

/-- Before a triggered instruction whose domains are chosen its address is set in them. -/
theorem enter_setTo {address : Nat} (h : enter address e = (.ok (), e')) :
    e'.machine.active = e.machine.active ∧ ∃ v, e.SetTo .eip v e' := by
  obtain ⟨_, e₁, hwrite, h⟩ := apply_bind_eq_ok h
  obtain ⟨hactive, v, hset⟩ := writeAddress_setTo hwrite
  rw [apply_bind_ok (apply_modify _ e₁), apply_get_bind] at h
  split at h
  · obtain ⟨e₂, hreport, halike⟩ :=
      reportUsage_alike { e₁ with governor := e₁.governor.tick }
    obtain ⟨-, rfl⟩ := Prod.mk.inj (hreport.symm.trans h)
    exact ⟨halike.active.trans hactive, v, hset.congr (by rw [halike.registers])⟩
  · obtain ⟨-, rfl⟩ := Prod.mk.inj h
    exact ⟨hactive, v, hset.congr rfl⟩

omit [Solver σ] in
theorem registers_afterInstruction (i : Instruction) (e : Engine σ) :
    (afterInstruction i e).2.machine.registers = e.machine.registers := by
  cases htrig : e.governor.isTriggered with
  | true =>
    obtain ⟨e', hafter, halike⟩ := afterInstruction_alike htrig i
    rw [hafter]
    exact halike.registers
  | false =>
    unfold afterInstruction
    rw [apply_get_bind, htrig]
    rfl

/-- A triggered instruction that succeeds is a step that does, behind what the governor does. -/
theorem execute_eq_ok (htrig : e.governor.isTriggered = true) (h : execute i e = (.ok (), e')) :
    ∃ e₁ e₂, beforeInstruction i e = (.ok (), e₁) ∧ step i e₁ = (.ok (), e₂) ∧
      e'.machine.registers = e₂.machine.registers := by
  unfold execute at h
  rw [apply_get_bind, htrig, Bool.not_true, if_neg Bool.false_ne_true] at h
  rcases hboth : (beforeInstruction i *> step i) e with ⟨r, e₂⟩
  rw [apply_bind_ok (apply_lift_run hboth)] at h
  cases r with
  | error fault =>
    obtain ⟨_, e₃, -, h⟩ := apply_bind_eq_ok h
    obtain ⟨_, e₄, -, h⟩ := apply_bind_eq_ok h
    cases h
  | ok _ =>
    obtain ⟨_, e₁, hbefore, hstep⟩ := apply_bind_eq_ok (f := fun _ => step i) hboth
    obtain ⟨_, e₃, hafter, h⟩ := apply_bind_eq_ok h
    obtain ⟨-, rfl⟩ := Prod.mk.inj h
    have hregisters := registers_afterInstruction i e₂
    rw [hafter] at hregisters
    exact ⟨e₁, e₂, hbefore, hstep, hregisters⟩

/-- The value that the execution of an instruction sets the address of the next one to at last.
The instruction runs behind what the governor does before it, its stores staged. -/
def lastAddress? (e : Engine σ) (i : Instruction) : Option Value :=
  (beforeInstruction i e).2.beginWrites.goesTo? i

theorem step_setTo (h : step i e = (.ok (), e')) :
    ∃ v, e.beginWrites.goesTo? i = some v ∧ e.SetTo .eip v e' := by
  unfold step at h
  rcases hrun : run i e.beginWrites with ⟨fault | _, e₂⟩
  · rw [hrun] at h
    cases h
  · rw [hrun] at h
    obtain ⟨-, rfl⟩ := Prod.mk.inj h
    obtain ⟨v, hv, hbits, hparts, hregister⟩ := run_setTo hrun
    exact ⟨v, hv, hbits, hparts, hregister⟩

/-- **An instruction that succeeds**, triggered or not, sets the address of the next one in the
domains that are active for it, and leaves what the others know of it. -/
theorem execute_setTo (h : execute i e = (.ok (), e')) :
    ∃ v, e.lastAddress? i = some v ∧ (e.entered (.execute i)).SetTo .eip v e' := by
  unfold lastAddress? entered
  cases htrig : e.governor.isTriggered with
  | false =>
    rw [execute_of_idle htrig] at h
    have hbefore : beforeInstruction i e = (.ok (), e) := by
      unfold beforeInstruction
      rw [apply_get_bind, htrig]
      rfl
    rw [hbefore]
    exact step_setTo h
  | true =>
    obtain ⟨e₁, e₂, hbefore, hstep, hregisters⟩ := execute_eq_ok htrig h
    obtain ⟨v, hv, hset⟩ := step_setTo hstep
    obtain ⟨j, henter⟩ := beforeInstruction_eq htrig i
    obtain ⟨hactive, u, hfirst⟩ := enter_setTo (henter.symm.trans hbefore)
    rw [hbefore]
    have hchosen : (e.chosen i).SetTo .eip u e₁ := ⟨hfirst.bits, hfirst.parts, hfirst.register⟩
    exact ⟨v, hv, (hchosen.trans hactive hset).congr (by rw [hregisters])⟩

end Engine
end Lockstep
