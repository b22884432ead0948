/-
# Steps

A statement of a step has the outcome that it has in the concrete machine.
While the step runs the bus waits and the log only grows; what a statement
changes still agrees with its number, and the log mirrors the stores as long
as no statement fails. At the end of the step the log mirrors the bus again,
since the cells of a failed step go with its stores.

Key definitions: `Engine.concreteState`, `Engine.Follows`, `Engine.Outcome`, `Engine.Stepped`.
Key theorems: `Engine.Outcome.bind`, `Engine.Computes.outcome`, `Engine.perform_outcome`,
`Engine.run_outcome`, `Engine.step_stepped`.
-/
import Lockstep.Proofs.Engine.Evaluate

namespace Lockstep

/-- What a write to a register makes of the machine, if it is not refused. -/
theorem Machine.eq_of_writeRegister {σ : Type} {m m' : Machine σ} {r : Register} {v : Value}
    (h : m.writeRegister r v = .ok m') :
    m' = { m with
      registers := m.registers.set r ((m.registers.get r).takeParts v m.active) } := by
  unfold writeRegister at h
  split at h
  · obtain ⟨merged, hmerged, hset⟩ := bind_eq_ok h
    obtain rfl := Except.ok.inj hset
    unfold Value.overlay at hmerged
    split at hmerged
    · obtain rfl := Except.ok.inj hmerged
      rfl
    · cases hmerged
  · cases h

namespace Engine

variable {σ : Type} {V : Widths} {e : Engine σ}

/-- What the concrete machine is while the engine is this one. -/
def concreteState (e : Engine σ) : Concrete.State where
  registers := e.registerNumber
  bus := e.machine.bus
  staged := e.machine.staged
  lastTrap := e.lastTrap

theorem note_eq (e : Engine σ) (level : Level) (message : Unit → String) :
    ∃ s, note level message e = (.ok (), e.withSymbolic s) ∧
      s.nextVariable = e.machine.symbolic.nextVariable :=
  ⟨_, rfl, rfl⟩

theorem note_journal (e : Engine σ) (level : Level) (message : Unit → String) :
    ∃ j, note level message e =
      (.ok (), e.withSymbolic { e.machine.symbolic with journal := j }) :=
  ⟨_, rfl⟩

theorem note_keeps_solver (e : Engine σ) (level : Level) (message : Unit → String) :
    ∃ s, note level message e = (.ok (), e.withSymbolic s) ∧
      s.solver = e.machine.symbolic.solver :=
  ⟨_, rfl, rfl⟩

/-! ### Writes to registers -/

/-- The engine with a value in the active domains of a register. -/
def written (e : Engine σ) (r : Register) (v : Value) : Engine σ :=
  { e with
    machine := { e.machine with
      registers := e.machine.registers.set r
        ((e.machine.registers.get r).takeParts v e.machine.active) } }

theorem get_written (e : Engine σ) (r s : Register) (v : Value) :
    (e.written r v).machine.registers.get s =
      if s = r then (e.machine.registers.get r).takeParts v e.machine.active
      else e.machine.registers.get s :=
  RegisterFile.get_set _ _ _ _

theorem updateMachine_ok {f : Machine σ → Except Fault (Machine σ)} {m : Machine σ}
    (h : f e.machine = .ok m) : updateMachine f e = (.ok (), { e with machine := m }) := by
  unfold updateMachine
  rw [apply_bind_ok (apply_get e), apply_check_ok h]
  rfl

theorem updateMachine_error {f : Machine σ → Except Fault (Machine σ)} {fault : Fault}
    (h : f e.machine = .error fault) : updateMachine f e = (.error fault, e) := by
  unfold updateMachine
  rw [apply_bind_ok (apply_get e), apply_check_error h]

/-- What counts of a change is what it makes of the machine. -/
theorem updateMachine_congr {f g : Machine σ → Except Fault (Machine σ)}
    (h : f e.machine = g e.machine) : updateMachine f e = updateMachine g e := by
  cases hg : g e.machine with
  | ok m => rw [updateMachine_ok hg, updateMachine_ok (h.trans hg)]
  | error fault => rw [updateMachine_error hg, updateMachine_error (h.trans hg)]

section

variable {r : Register} {v : Value} {n : Nat}

theorem writeRegister_ok (hbits : (e.machine.registers.get r).bits = r.bits)
    (hw : v.bits = r.bits) : e.machine.writeRegister r v = .ok (e.written r v).machine := by
  unfold Machine.writeRegister
  rw [if_pos hw, Value.overlay_eq (hw.trans hbits.symm)]
  rfl

theorem writeRegister_error (hw : v.bits ≠ r.bits) :
    e.machine.writeRegister r v = .error (.registerWidth v.bits r) := by
  unfold Machine.writeRegister
  rw [if_neg hw]
  rfl

theorem concrete_takeParts (he : e.Ready V) (hn : v.concrete = some n) :
    ((e.machine.registers.get r).takeParts v e.machine.active).concrete = some n := by
  unfold Value.takeParts
  rw [he.concrete, if_pos rfl, hn]

theorem registerNumber_written (he : e.Ready V) (hn : v.concrete = some n) (s : Register) :
    (e.written r v).registerNumber s = if s = r then n else e.registerNumber s := by
  unfold registerNumber
  rw [get_written]
  by_cases hs : s = r
  · rw [if_pos hs, if_pos hs, concrete_takeParts he hn, Option.getD_some]
  · rw [if_neg hs, if_neg hs]

theorem concreteState_written (he : e.Ready V) (hn : v.concrete = some n) :
    (e.written r v).concreteState = e.concreteState.set r n := by
  unfold concreteState Concrete.State.set
  congr 1
  funext s
  exact registerNumber_written he hn s

theorem Ready.written (he : e.Ready V) (hv : v.WellFormed (e.widths V)) (hw : v.bits = r.bits)
    (hn : v.concrete = some n) : (e.written r v).Ready V where
  concrete := he.concrete
  triggered := he.triggered
  cells := he.cells
  bits s := by
    rw [get_written]
    by_cases hs : s = r
    · rw [if_pos hs, hs]
      exact he.bits r
    · rw [if_neg hs]
      exact he.bits s
  registers s := by
    rw [get_written]
    by_cases hs : s = r
    · rw [if_pos hs]
      exact Value.wellFormed_takeParts (he.registers r) hv (hw.trans (he.bits r).symm) _
    · rw [if_neg hs]
      exact he.registers s
  known s := by
    rw [get_written]
    by_cases hs : s = r
    · rw [if_pos hs]
      exact ⟨n, concrete_takeParts he hn⟩
    · rw [if_neg hs]
      exact he.known s

/-- A write makes the register that it sets agree, whatever this was before. -/
theorem agrees_written {ρ : Assignment} (he : e.Ready V)
    (h : ∀ s, s ≠ r → ((e.machine.registers.get s).restrict e.machine.active).Describes ρ
      (e.registerNumber s))
    (hw : v.bits = r.bits) (hn : v.concrete = some n) (hd : v.Describes ρ n) :
    (e.written r v).Agrees ρ := by
  intro s
  rw [registerNumber_written he hn, get_written]
  by_cases hs : s = r
  · rw [if_pos hs, if_pos hs]
    show (((e.machine.registers.get r).takeParts v e.machine.active).restrict
      e.machine.active).Describes ρ n
    rw [Value.restrict_takeParts (hw.trans (he.bits r).symm)]
    exact Value.describes_restrict hd _
  · rw [if_neg hs, if_neg hs]
    exact h s hs

theorem Agrees.written {ρ : Assignment} (he : e.Ready V) (h : e.Agrees ρ) (hw : v.bits = r.bits)
    (hn : v.concrete = some n) (hd : v.Describes ρ n) : (e.written r v).Agrees ρ :=
  agrees_written he (fun s _ => h s) hw hn hd

theorem Consistent.written {start : Bus} {ρ : Assignment} (he : e.Ready V)
    (h : e.Consistent start ρ) (hw : v.bits = r.bits) (hn : v.concrete = some n)
    (hd : v.Describes ρ n) : (e.written r v).Consistent start ρ :=
  ⟨h.registers.written he hw hn hd, h.log⟩

end

/-! ### Stores -/

theorem concreteState_stored (e : Engine σ) (a bits n : Nat) (new : List Cell) :
    (e.stored a bits n new).concreteState = e.concreteState.store a bits n := by
  unfold stored concreteState Concrete.State.store Machine.store
  dsimp only
  cases e.machine.staged <;> rfl

section

variable {a bits n : Nat} {new : List Cell} {staged : List (Nat × UInt8)}

theorem stored_eq (h : e.machine.staged = some staged) :
    e.stored a bits n new =
      { e with
        machine := { e.machine with
          staged := some ((Bus.writes a (bits / 8) n).reverse ++ staged) }
        log := ⟨new ++ e.log.cells⟩ } := by
  unfold stored Machine.store
  rw [h]

theorem Ready.stored (he : e.Ready V) (h : e.machine.staged = some staged)
    (hnew : ∀ c ∈ new, c.WellFormed (e.widths V)) : (e.stored a bits n new).Ready V := by
  rw [stored_eq h]
  exact ⟨he.concrete, he.triggered, fun c hc => (List.mem_append.1 hc).elim (hnew c) (he.cells c),
    he.bits, he.registers, he.known⟩

theorem Agrees.stored {ρ : Assignment} (h : e.Agrees ρ) (hs : e.machine.staged = some staged) :
    (e.stored a bits n new).Agrees ρ := by
  rw [stored_eq hs]
  exact h

/-- A store whose new cells hold its writes keeps the log a mirror. -/
theorem Mirrors.stored {start : Bus} {ρ : Assignment} (h : e.Mirrors start ρ)
    (hs : e.machine.staged = some staged)
    (hnew : List.Forall₂ (Cell.Holds ρ) new (Bus.writes a (bits / 8) n).reverse) :
    (e.stored a bits n new).Mirrors start ρ := by
  obtain ⟨committed, hbus, hcells⟩ := h
  rw [hs] at hcells
  rw [stored_eq hs]
  refine ⟨committed, hbus, ?_⟩
  show List.Forall₂ (Cell.Holds ρ) (new ++ e.log.cells)
    ((Bus.writes a (bits / 8) n).reverse ++ staged ++ committed)
  rw [List.append_assoc]
  exact List.rel_append hnew hcells

theorem truncate_of_append {log log' : MemoryLog} {new : List Cell}
    (h : log'.cells = new ++ log.cells) : log'.truncate log.size = log := by
  unfold MemoryLog.truncate MemoryLog.size
  rw [h, List.length_append, Nat.add_sub_cancel, List.drop_left]

/-- The staged stores of a mirrored engine become the newest committed ones. -/
theorem Mirrors.commitWrites {start : Bus} {ρ : Assignment} (h : e.Mirrors start ρ) :
    e.commitWrites.Mirrors start ρ := by
  obtain ⟨committed, hbus, hcells⟩ := h
  refine ⟨e.machine.staged.getD [] ++ committed, ?_, hcells⟩
  show e.machine.bus.setBytes (e.machine.staged.getD []).reverse = _
  rw [List.reverse_append, Bus.setBytes_append, hbus]

end

/-! ### The begin and the end of a step -/

theorem Ready.beginWrites (he : e.Ready V) : e.beginWrites.Ready V :=
  ⟨he.concrete, he.triggered, he.cells, he.bits, he.registers, he.known⟩

theorem Ready.commitWrites (he : e.Ready V) : e.commitWrites.Ready V :=
  ⟨he.concrete, he.triggered, he.cells, he.bits, he.registers, he.known⟩

/-- Nothing is staged before a step, and at its begin nothing yet. -/
theorem Consistent.beginWrites {start : Bus} {ρ : Assignment} (h : e.Consistent start ρ)
    (hstaged : e.machine.staged = none) : e.beginWrites.Consistent start ρ := by
  refine ⟨h.registers, fun hsym => ?_⟩
  obtain ⟨committed, hbus, hcells⟩ := h.log hsym
  rw [hstaged] at hcells
  exact ⟨committed, hbus, hcells⟩

theorem Consistent.commitWrites {start : Bus} {ρ : Assignment} (h : e.Consistent start ρ) :
    e.commitWrites.Consistent start ρ :=
  ⟨h.registers, fun hsym => (h.log hsym).commitWrites⟩

/-! ### Outcomes -/

/-- The outcome of a computation is the one of the concrete machine; where it fails, only if
`wide` holds. The engine stays one that can evaluate. -/
structure Follows (V : Widths) (e : Engine σ) (out : Except Fault Unit × Engine σ)
    (result : Except Fault Unit × Concrete.State) (wide : Prop) : Prop where
  active : out.2.machine.active = e.machine.active
  governor : out.2.governor = e.governor
  le : e.machine.symbolic.nextVariable ≤ out.2.machine.symbolic.nextVariable
  ready : out.2.Ready V
  success : out.1 = .ok () → result = (.ok (), out.2.concreteState)
  failure : ∀ f, out.1 = .error f → wide → result = (.error f, out.2.concreteState)

/-- The result of a step is that of the concrete machine, be it a success or a fault. -/
theorem Follows.result {out : Except Fault Unit × Engine σ}
    {result : Except Fault Unit × Concrete.State} {wide : Prop}
    (h : Follows V e out result wide) (hw : wide) : result = (out.1, out.2.concreteState) := by
  rcases out with ⟨_ | _, e'⟩
  · exact h.failure _ rfl hw
  · exact h.success rfl

variable [Solver σ] {env : List (Value × Nat)}

/-- The outcome of a part of a step: the bus waits and the log grows. Where the domains agree
and the values of `env` describe their numbers, the registers agree afterwards, and the log
mirrors the stores unless the part fails. -/
structure Outcome (V : Widths) (e : Engine σ) (env : List (Value × Nat))
    (out : Except Fault Unit × Engine σ) (result : Except Fault Unit × Concrete.State)
    (wide : Prop) : Prop extends Follows V e out result wide where
  bus : out.2.machine.bus = e.machine.bus
  staged : out.2.machine.staged.isSome = true
  cells : ∃ new, out.2.log.cells = new ++ e.log.cells
  sound : ∀ (start : Bus) (ρ : Assignment), Solver.RightOver σ V → e.Consistent start ρ →
    (∀ p ∈ env, p.1.Describes ρ p.2) →
    ∃ ρ', ρ.AgreesOutside e.machine.symbolic.nextVariable
        out.2.machine.symbolic.nextVariable ρ' ∧
      out.2.Agrees ρ' ∧ (out.1 = .ok () → out.2.Consistent start ρ')

section

variable {act act' : EngineM σ Unit} {result result' : Except Fault Unit × Concrete.State}
  {wide wide' : Prop}

theorem Outcome.imp {out : Except Fault Unit × Engine σ} {p q : Prop}
    (h : Outcome V e env out result p) (hw : q → p) : Outcome V e env out result q :=
  { h with failure := fun f hf hwide => h.failure f hf (hw hwide) }

theorem outcome_error {f : Fault} {s : Symbolic σ} (he : e.Ready V)
    (hstaged : e.machine.staged.isSome = true)
    (hle : e.machine.symbolic.nextVariable ≤ s.nextVariable)
    (h : wide → result = (.error f, e.concreteState)) :
    Outcome V e env (.error f, e.withSymbolic s) result wide where
  active := rfl
  governor := rfl
  le := hle
  ready := he.withSymbolic hle
  success := nofun
  failure f' hf hwide := by
    obtain rfl := Except.error.inj hf
    exact h hwide
  bus := rfl
  staged := hstaged
  cells := ⟨[], rfl⟩
  sound start ρ _ hcons _ := ⟨ρ, fun _ _ => rfl, hcons.registers, nofun⟩

/-- **Parts of a step in sequence.** -/
theorem Outcome.bind (h : Outcome V e env (act e) result wide)
    (hok : ∀ e', act e = (.ok (), e') → result = (.ok (), e'.concreteState) →
      Outcome V e' [] (act' e') result' wide')
    (herror : ∀ f c, result = (.error f, c) → result' = (.error f, c)) :
    Outcome V e env ((act >>= fun _ => act') e) result' (wide ∧ wide') := by
  rcases hact : act e with ⟨r, e'⟩
  rw [hact] at h
  cases r with
  | error f =>
    rw [apply_bind_error hact]
    exact { h with
      success := nofun
      failure := fun f' hf hw => herror _ _ (h.failure f' hf hw.1)
      sound := h.sound }
  | ok _ =>
    have hresult := h.success rfl
    have h' := hok e' hact hresult
    rw [apply_bind_ok hact]
    refine ⟨⟨h'.active.trans h.active, h'.governor.trans h.governor, h.le.trans h'.le, h'.ready,
      h'.success, fun f hf hw => h'.failure f hf hw.2⟩, h'.bus.trans h.bus, h'.staged, ?_, ?_⟩
    · obtain ⟨new, hnew⟩ := h.cells
      obtain ⟨new', hnew'⟩ := h'.cells
      exact ⟨new' ++ new, by rw [hnew', hnew, List.append_assoc]⟩
    · intro start ρ hsolver hcons hd
      obtain ⟨ρ₁, hρ₁, -, hcons₁⟩ := h.sound start ρ hsolver hcons hd
      obtain ⟨ρ₂, hρ₂, hcons₂⟩ := h'.sound start ρ₁ hsolver (hcons₁ rfl) (List.forall_mem_nil _)
      exact ⟨ρ₂, hρ₁.trans h.le h'.le hρ₂, hcons₂⟩

/-- **A part that uses a computed value.** It finds the value among those that are there. -/
theorem Computes.outcome {act : EngineM σ Value} {f : Value → EngineM σ Unit}
    {number : Except Fault (Nat × Nat)} {next : Nat × Nat → Except Fault Concrete.State}
    (he : e.Ready V) (hstaged : e.machine.staged.isSome = true)
    (henv : ∀ p ∈ env, p.1.WellFormed (e.widths V)) (h : Computes V e env act number wide)
    (hf : ∀ v n s, number = .ok (v.bits, n) → Computed V e env s v n →
      e.machine.symbolic.nextVariable ≤ s.nextVariable →
      Outcome V (e.withSymbolic s) ((v, n) :: env) (f v (e.withSymbolic s))
        (e.concreteState.after (next (v.bits, n))) wide') :
    Outcome V e env ((act >>= f) e) (e.concreteState.after (number >>= next)) (wide ∧ wide') := by
  obtain ⟨r, s, hact, hle, hr⟩ := h
  cases r with
  | error fault =>
    rw [apply_bind_error hact]
    exact outcome_error he hstaged hle fun hw => by rw [hr hw.1]; rfl
  | ok v =>
    obtain ⟨n, hn, hv⟩ := hr
    have h' := hf v n s hn hv hle
    have hnumber : (number >>= next) = next (v.bits, n) := by
      rw [hn]
      rfl
    rw [apply_bind_ok hact, hnumber]
    refine ⟨⟨h'.active, h'.governor, hle.trans h'.le, h'.ready, h'.success,
      fun f hf hw => h'.failure f hf hw.2⟩, h'.bus, h'.staged, h'.cells,
      fun start ρ hsolver hcons hd => ?_⟩
    obtain ⟨ρ₁, hρ₁, hcons₁, hd₁⟩ := hv.extend he henv hsolver hcons hd
    obtain ⟨ρ₂, hρ₂, hcons₂⟩ := h'.sound start ρ₁ hsolver hcons₁ hd₁
    exact ⟨ρ₂, hρ₁.trans hle h'.le hρ₂, hcons₂⟩

end

/-! ### Statements -/

theorem write_outcome {r : Register} {v : Value} {n : Nat} (he : e.Ready V)
    (hstaged : e.machine.staged.isSome = true) (hv : v.WellFormed (e.widths V))
    (hn : v.concrete = some n)
    (hd : ∀ start ρ, e.Consistent start ρ → (∀ p ∈ env, p.1.Describes ρ p.2) →
      v.Describes ρ n) :
    Outcome V e env (updateMachine (·.writeRegister r v) e)
      (e.concreteState.after (e.concreteState.write r v.bits n)) True := by
  unfold Concrete.State.write
  by_cases hw : v.bits = r.bits
  · rw [updateMachine_ok (writeRegister_ok (he.bits r) hw), if_pos hw]
    refine ⟨⟨rfl, rfl, Nat.le_refl _, he.written hv hw hn, fun _ => ?_, nofun⟩, rfl, hstaged,
      ⟨[], rfl⟩, fun start ρ _ hcons hdesc => ⟨ρ, fun _ _ => rfl, ?_⟩⟩
    · exact congrArg (Prod.mk _) (concreteState_written he hn).symm
    · have hcons' := hcons.written he hw hn (hd start ρ hcons hdesc)
      exact ⟨hcons'.registers, fun _ => hcons'⟩
  · rw [updateMachine_error (writeRegister_error hw), if_neg hw]
    exact outcome_error he hstaged (Nat.le_refl _) fun _ => rfl

/-- A store was made; if nothing failed then, the new cells hold its writes. -/
theorem outcome_stored {r : Except Fault Unit} {result : Except Fault Unit × Concrete.State}
    {wide : Prop} {a bits n : Nat} {new : List Cell} {staged : List (Nat × UInt8)}
    (he : e.Ready V) (hs : e.machine.staged = some staged)
    (hnew : ∀ c ∈ new, c.WellFormed (e.widths V))
    (hok : r = .ok () → result = (.ok (), e.concreteState.store a bits n))
    (herror : ∀ f, r = .error f → ¬ wide)
    (hholds : r = .ok () → e.machine.active.contains .symbolic = true → ∀ ρ,
      (∀ p ∈ env, p.1.Describes ρ p.2) →
      List.Forall₂ (Cell.Holds ρ) new (Bus.writes a (bits / 8) n).reverse) :
    Outcome V e env (r, e.stored a bits n new) result wide := by
  have heq : e.stored a bits n new = _ := stored_eq hs
  refine ⟨⟨?_, ?_, ?_, he.stored hs hnew, fun hr => ?_, fun f hr hw => absurd hw (herror f hr)⟩,
    ?_, ?_, ⟨new, rfl⟩, fun start ρ _ hcons hd => ⟨ρ, fun _ _ => rfl, ?_, fun hr => ⟨?_, ?_⟩⟩⟩
  · dsimp only
    rw [heq]
  · rfl
  · dsimp only
    rw [heq]
  · rw [concreteState_stored]
    exact hok hr
  · dsimp only
    rw [heq]
  · dsimp only
    rw [heq]
    rfl
  · exact hcons.registers.stored hs
  · exact hcons.registers.stored hs
  · dsimp only
    intro hsym
    have hsym : e.machine.active.contains .symbolic = true := by
      rw [heq] at hsym
      exact hsym
    exact (hcons.log hsym).stored hs (hholds hr hsym ρ hd)

theorem store_outcome {u v : Value} {a n : Nat} (size : Nat) (he : e.Ready V)
    (hstaged : e.machine.staged.isSome = true) (hu : u.WellFormed (e.widths V))
    (ha : u.concrete = some a) (hv : v.WellFormed (e.widths V)) (hn : v.concrete = some n) :
    Outcome V e ((v, n) :: (u, a) :: env)
      ((do
        if v.bits ≠ size then throw (.storeWidth size v.bits)
        writeMemory u v : EngineM σ Unit) e)
      (e.concreteState.after (do
        if v.bits ≠ size then throw (.storeWidth size v.bits)
        checkAccessWidth v.bits
        pure (e.concreteState.store a v.bits n)))
      (u.bits = addressBits) := by
  by_cases hsize : v.bits ≠ size
  · rw [if_pos hsize, if_pos hsize]
    exact outcome_error he hstaged (Nat.le_refl _) fun _ => rfl
  rw [if_neg hsize, if_neg hsize]
  show Outcome V e _ (writeMemory u v e) (e.concreteState.after (do
    checkAccessWidth v.bits
    pure (e.concreteState.store a v.bits n))) _
  have hacc : Accessible (e.widths V) e u a := ⟨he.concrete, he.triggered, he.cells, hu, ha⟩
  obtain ⟨staged, hs⟩ := Option.isSome_iff_exists.1 hstaged
  rcases checkAccessWidth_cases v.bits with hw | hw
  · rw [hw]
    by_cases hat : e.machine.active.contains .symbolic = true →
        ∀ t, u.symbolic? = some t → IsAddress t
    · obtain ⟨new, hwrite, hwf, hholds⟩ := writeMemory_ok hacc hv hn hw hat
      rw [hwrite]
      exact outcome_stored he hs hwf (fun _ => rfl) nofun fun _ hsym ρ hd =>
        hholds hsym ρ (hd _ (.tail _ List.mem_cons_self)) (hd _ List.mem_cons_self)
    · push Not at hat
      obtain ⟨hsym, base, hbase, hat⟩ := hat
      rw [writeMemory_address hacc hsym hv hn hw hbase hat]
      refine outcome_stored he hs (List.forall_mem_nil _) nofun (fun _ _ hwide => ?_) nofun
      exact hat (.inl ((hu.symbolic? hbase).2.trans hwide))
  · rw [hw, writeMemory_width hw]
    exact outcome_error he hstaged (Nat.le_refl _) fun _ => rfl

theorem trap_outcome (he : e.Ready V) (hstaged : e.machine.staged.isSome = true)
    (vector : Nat) :
    Outcome V e [] (recordTrap vector e)
      (.ok (), { e.concreteState with lastTrap := some vector }) True := by
  obtain ⟨s, hnote, hnext⟩ :=
    note_eq e .debug fun _ => "trap vector " ++ hexPadded 2 vector
  have hact : recordTrap vector e =
      (.ok (), { e.withSymbolic s with lastTrap := some vector }) := by
    unfold recordTrap
    rw [apply_bind_ok hnote]
    rfl
  have he₁ := he.withSymbolic hnext.ge
  rw [hact]
  exact ⟨⟨rfl, rfl, hnext.ge, ⟨he₁.concrete, he₁.triggered, he₁.cells, he₁.bits, he₁.registers,
    he₁.known⟩, fun _ => rfl, nofun⟩, rfl, hstaged, ⟨[], rfl⟩, fun start ρ _ hcons _ =>
      ⟨ρ, fun _ _ => rfl, hcons.registers, fun _ => ⟨hcons.registers, hcons.log⟩⟩⟩

/-- **A statement.** It evaluates its expressions in order, and only then it changes anything. -/
theorem perform_outcome {s : Statement} (hdef : s.Defined)
    (hfresh : V.Fresh e.machine.symbolic.nextVariable) (he : e.Ready V)
    (hstaged : e.machine.staged.isSome = true) :
    Outcome V e [] (perform s e) (e.concreteState.after (e.concreteState.perform s))
      s.WideAddresses := by
  have hnil : ∀ p ∈ ([] : List (Value × Nat)), p.1.WellFormed (e.widths V) :=
    List.forall_mem_nil _
  cases s with
  | setRegister name x =>
    have hx := evaluate_computes hdef hfresh he hnil
    refine (Computes.outcome he hstaged hnil hx fun v n s _ hv hle => ?_).imp
      (p := x.WideAddresses ∧ True) fun h => ⟨h, trivial⟩
    have he₁ := he.withSymbolic hle
    cases hr : Register.named name with
    | ok r =>
      have hwrite : (fun m : Machine σ => m.writeNamed name v) = (·.writeRegister r v) := by
        unfold Machine.writeNamed
        rw [hr]
        rfl
      rw [hwrite]
      exact write_outcome he₁ hstaged hv.wellFormed hv.concrete fun _ _ _ hd =>
        hd _ List.mem_cons_self
    | error fault =>
      have hrefused : (e.withSymbolic s).machine.writeNamed name v = .error fault := by
        unfold Machine.writeNamed
        rw [hr]
        rfl
      rw [updateMachine_error hrefused]
      exact outcome_error he₁ hstaged (Nat.le_refl _) fun _ => rfl
  | store size a x =>
    have ha := evaluate_computes hdef.1 hfresh he hnil
    refine (Computes.outcome he hstaged hnil ha fun u k s hnumber hu hle => ?_).imp
      (p := a.WideAddresses ∧ x.WideAddresses ∧ ∀ w, a.width? = some w → w = addressBits) id
    have he₁ := he.withSymbolic hle
    have henv₁ := wellFormed_env (n := k) hnil hle hu.wellFormed
    have hx := evaluate_computes hdef.2 (hfresh.mono hle) he₁ henv₁
    refine (Computes.outcome he₁ hstaged henv₁ hx fun v n s' _ hv hle' => ?_).imp
      (p := x.WideAddresses ∧ u.bits = addressBits) fun h =>
        ⟨h.1, h.2 _ (Expr.width?_of_number hnumber)⟩
    exact store_outcome size (he₁.withSymbolic hle') hstaged
      (hu.wellFormed.mono (widths_mono hle')) hu.concrete hv.wellFormed hv.concrete
  | jump target =>
    have hx := evaluate_computes hdef hfresh he hnil
    refine (Computes.outcome he hstaged hnil hx fun v n s _ hv hle => ?_).imp
      (p := target.WideAddresses ∧ True) fun h => ⟨h, trivial⟩
    exact write_outcome (he.withSymbolic hle) hstaged hv.wellFormed hv.concrete fun _ _ _ hd =>
      hd _ List.mem_cons_self
  | trap vector => exact (trap_outcome he hstaged vector).imp fun _ => trivial

/-! ### Instructions -/

theorem outcome_pure (he : e.Ready V) (hstaged : e.machine.staged.isSome = true) :
    Outcome V e [] ((pure () : EngineM σ Unit) e) (.ok (), e.concreteState) True where
  active := rfl
  governor := rfl
  le := Nat.le_refl _
  ready := he
  success _ := rfl
  failure := nofun
  bus := rfl
  staged := hstaged
  cells := ⟨[], rfl⟩
  sound _ ρ _ hcons _ := ⟨ρ, fun _ _ => rfl, hcons.registers, fun _ => hcons⟩

/-- Statements, by induction on the list: each starts where the one before ended. -/
theorem performAll_outcome {ss : List Statement} (hdef : ∀ s ∈ ss, s.Defined)
    (hfresh : V.Fresh e.machine.symbolic.nextVariable) (he : e.Ready V)
    (hstaged : e.machine.staged.isSome = true) :
    Outcome V e [] (ss.forM perform e) (e.concreteState.performAll ss)
      (∀ s ∈ ss, s.WideAddresses) := by
  induction ss generalizing e with
  | nil => exact (outcome_pure he hstaged).imp fun _ => trivial
  | cons s ss ih =>
    obtain ⟨hs, hss⟩ := List.forall_mem_cons.1 hdef
    have hfirst := perform_outcome hs hfresh he hstaged
    show Outcome V e [] ((perform s >>= fun _ => ss.forM perform) e) _ _
    refine (Outcome.bind hfirst (fun e' hact hresult => ?_) fun f c hresult => ?_).imp
      List.forall_mem_cons.1
    · rw [hact] at hfirst
      have hrest := ih hss (hfresh.mono hfirst.le) hfirst.ready hfirst.staged
      unfold Concrete.State.performAll
      rw [hresult]
      exact hrest
    · unfold Concrete.State.performAll
      rw [hresult]

/-- The address behind an instruction is computed in every active domain. -/
theorem advance_outcome (he : e.Ready V) (hstaged : e.machine.staged.isSome = true)
    (length : Nat) :
    Outcome V e [] (advance length e) (.ok (), e.concreteState.advance length) True := by
  obtain ⟨u, hu, hushape, hudesc⟩ := Value.number_ok (V := e.widths V) e.machine.active
    (show 0 < addressBits by decide) (show addressBits ≤ maxBits by decide) length
  have heip : (e.machine.readRegister .eip).WellFormed (e.widths V) :=
    Value.wellFormed_restrict (he.registers .eip) _
  have hbits : (e.machine.readRegister .eip).bits = addressBits := he.bits .eip
  obtain ⟨v, hv, hvshape, hvdesc⟩ := Value.binary_ok e.machine.active .add heip
    hushape.wellFormed (hbits.trans hushape.bits.symm)
  rw [hbits] at hvshape hvdesc
  have hknown : (e.machine.readRegister .eip).concrete = some (e.registerNumber .eip) :=
    Value.only_eq_some.2 ⟨he.concrete, he.registerNumber .eip⟩
  have hun : u.concrete = some (Word.truncate addressBits length) := by
    rw [hushape.concrete]
    exact Value.only_eq_some.2 ⟨he.concrete, rfl⟩
  have hn : v.concrete = some (Word.binary .add addressBits (e.registerNumber .eip)
      (Word.truncate addressBits length)) := by
    rw [hvshape.concrete, Value.known?_of_concrete hknown, Value.known?_of_concrete hun]
    exact Value.only_eq_some.2 ⟨he.concrete, rfl⟩
  have hwrite : Outcome V e [] (updateMachine (·.writeRegister .eip v) e)
      (e.concreteState.after (e.concreteState.write .eip v.bits _)) True :=
    write_outcome he hstaged hvshape.wellFormed hn fun _ ρ hcons _ =>
      hvdesc ρ _ _ (hcons.registers .eip) (hudesc ρ)
  have hact : advance length e = updateMachine (·.writeRegister .eip v) e := by
    refine updateMachine_congr ?_
    rw [hu]
    exact congrArg (· >>= fun v => e.machine.writeRegister .eip v) hv
  rw [hact]
  unfold Concrete.State.write at hwrite
  rw [if_pos (show v.bits = Register.eip.bits from hvshape.bits)] at hwrite
  exact hwrite

/-- **An instruction** that every active domain holds to be next. -/
theorem run_outcome {i : Instruction} (hdef : i.Defined)
    (hfresh : V.Fresh e.machine.symbolic.nextVariable) (he : e.Ready V)
    (hstaged : e.machine.staged.isSome = true) :
    Outcome V e [] (run i e) (e.concreteState.run i)
      (i.WideAddresses ∧ checkAddress e.machine i.address = .ok ()) := by
  cases hcheck : checkAddress e.machine i.address with
  | error f =>
    have hact : run i e = (.error f, e) := by
      unfold run
      rw [apply_bind_ok (apply_get e)]
      exact apply_check_error hcheck _ _
    rw [hact]
    exact outcome_error he hstaged (Nat.le_refl _) fun h => nomatch h.2
  | ok _ =>
    have hact : run i e =
        (i.statements.forM perform >>= fun _ => (unless i.jumps do advance i.length)) e := by
      unfold run
      rw [apply_bind_ok (apply_get e)]
      exact apply_check_ok hcheck _ _
    rw [hact]
    have hall := performAll_outcome hdef hfresh he hstaged
    refine (Outcome.bind hall (fun e' hact hresult => ?_) fun f c hresult => ?_).imp
      (p := i.WideAddresses ∧ True) fun h => ⟨h.1, trivial⟩
    · rw [hact] at hall
      unfold Concrete.State.run
      rw [hresult]
      cases i.jumps with
      | true => exact outcome_pure hall.ready hall.staged
      | false => exact advance_outcome hall.ready hall.staged i.length
    · unfold Concrete.State.run
      rw [hresult]

/-! ### Steps -/

/-- The outcome of a step: the bus is up to date again, and where the domains agree they
agree afterwards, whether the step succeeded or not. -/
structure Stepped (V : Widths) (e : Engine σ) (out : Except Fault Unit × Engine σ)
    (result : Except Fault Unit × Concrete.State) (wide : Prop) : Prop extends
    Follows V e out result wide where
  staged : out.2.machine.staged = none
  sound : ∀ (start : Bus) (ρ : Assignment), Solver.RightOver σ V → e.Consistent start ρ →
    ∃ ρ', ρ.AgreesOutside e.machine.symbolic.nextVariable
        out.2.machine.symbolic.nextVariable ρ' ∧ out.2.Consistent start ρ'

/-- **A step.** If it fails, its stores and its cells are gone, and what it wrote to registers
stays. -/
theorem step_stepped {i : Instruction} (hdef : i.Defined)
    (hfresh : V.Fresh e.machine.symbolic.nextVariable) (he : e.Ready V)
    (hstaged : e.machine.staged = none) :
    Stepped V e (step i e) (e.concreteState.step i)
      (i.WideAddresses ∧ checkAddress e.machine i.address = .ok ()) := by
  have hrun := run_outcome (e := e.beginWrites) hdef hfresh he.beginWrites rfl
  unfold step Concrete.State.step
  rcases hout : run i e.beginWrites with ⟨r, e'⟩
  rw [hout] at hrun
  have hready := hrun.ready
  cases r with
  | ok _ =>
    have hresult : Concrete.State.run { e.concreteState with staged := some [] } i =
        (.ok (), e'.concreteState) := hrun.success rfl
    rw [hresult]
    refine ⟨⟨hrun.active, hrun.governor, hrun.le, hready.commitWrites, fun _ => rfl, nofun⟩, rfl,
      fun start ρ hsolver hcons => ?_⟩
    obtain ⟨ρ', hρ', -, hcons'⟩ :=
      hrun.sound start ρ hsolver (hcons.beginWrites hstaged) (List.forall_mem_nil _)
    exact ⟨ρ', hρ', (hcons' rfl).commitWrites⟩
  | error f =>
    -- the log is the one before the step again, and so it mirrors the bus that waited
    obtain ⟨new, hnew⟩ := hrun.cells
    have hlog : e'.log.truncate e.log.size = e.log := truncate_of_append hnew
    unfold discardWrites
    dsimp only
    rw [hlog]
    refine ⟨⟨hrun.active, hrun.governor, hrun.le, ⟨hready.concrete, hready.triggered,
      fun c hc => (he.cells c hc).mono (V.below_mono hrun.le), hready.bits, hready.registers,
      hready.known⟩, nofun, fun f' hf hw => ?_⟩, rfl, fun start ρ hsolver hcons => ?_⟩
    · have hresult : Concrete.State.run { e.concreteState with staged := some [] } i =
          (.error f, e'.concreteState) := hrun.failure f rfl hw
      obtain rfl := Except.error.inj hf
      rw [hresult]
      rfl
    · obtain ⟨ρ', hρ', hregisters, -⟩ :=
        hrun.sound start ρ hsolver (hcons.beginWrites hstaged) (List.forall_mem_nil _)
      refine ⟨ρ', hρ', hregisters, fun hsym => ?_⟩
      obtain ⟨committed, hbus, hcells⟩ :=
        (hcons.congr he fun id hid => hρ'.below hid).log (hrun.active ▸ hsym)
      rw [hstaged] at hcells
      exact ⟨committed, hrun.bus.trans hbus, hcells⟩

end Engine
end Lockstep
