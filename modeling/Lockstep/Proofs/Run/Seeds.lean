/-
# Seeds

Seeding an engine changes its registers only, in a way that the rest of the
engine has no part in. Every register has a number before and after, and its
value stays well formed, whatever range a seed gives it.

Key definitions: `Job.seedRegisters`, `RegisterFile.Seeded`.
Key theorems: `Job.seed_eq`, `Job.seeded_seedRegisters`, `Job.symbolic_seedRegisters`,
`Job.interval_seedRegisters`, `Engine.start_settled`.
-/
import Lockstep.Proofs.Engine.Execute

namespace Lockstep

/-- The engine with other registers. -/
def Engine.withRegisters {σ : Type} (e : Engine σ) (f : RegisterFile) : Engine σ :=
  { e with machine := { e.machine with registers := f } }

/-- The value with what a seed says of it. -/
def Seed.apply (s : Seed) (v : Value) : Value :=
  let v := match s.concrete with
    | some n => v.setConcrete n
    | none => v
  match s.interval with
  | some i => { v with interval := some i }
  | none => v

/-- The registers with what a seed says of the named one. -/
def RegisterFile.seed (f : RegisterFile) (name : String) (s : Seed) :
    Except Fault RegisterFile := do
  let r ← Register.named name
  return (← f.replace name (s.apply (f.get r))).2

/-- The registers with every seed of the job. -/
def Job.seedRegisters (j : Job) (f : RegisterFile) : Except Fault RegisterFile := do
  let f ← j.registers.foldlM (fun f (name, s) => f.seed name s) f
  f.seed Register.eip.name { concrete := some j.entry }

theorem Engine.seed_eq {σ : Type} (e : Engine σ) (name : String) (s : Seed) :
    e.seed name s = (e.machine.registers.seed name s).map e.withRegisters := by
  unfold Engine.seed RegisterFile.seed
  cases Register.named name with
  | error f => rfl
  | ok r =>
    let v := s.apply (e.machine.registers.get r)
    show (do
      let machine ← e.machine.seedNamed name v
      return { e with machine } : Except Fault (Engine σ)) =
        (do return (← e.machine.registers.replace name v).2 : Except Fault _).map e.withRegisters
    unfold Machine.seedNamed
    cases e.machine.registers.replace name v <;> rfl

theorem Job.seed_eq {σ : Type} (j : Job) (e : Engine σ) :
    j.seed e = (j.seedRegisters e.machine.registers).map e.withRegisters := by
  have hfold (seeds : List (String × Seed)) (f : RegisterFile) :
      seeds.foldlM (fun (e : Engine σ) (name, s) => e.seed name s) (e.withRegisters f) =
        (seeds.foldlM (fun (f : RegisterFile) (name, s) => f.seed name s) f).map
          e.withRegisters := by
    induction seeds generalizing f with
    | nil => rfl
    | cons p seeds ih =>
      obtain ⟨name, s⟩ := p
      rw [List.foldlM_cons, List.foldlM_cons]
      dsimp only
      rw [Engine.seed_eq]
      show ((f.seed name s).map e.withRegisters >>= _) = _
      cases f.seed name s with
      | error fault => rfl
      | ok f' => exact ih f'
  unfold Job.seed Job.seedRegisters
  have hall := hfold j.registers e.machine.registers
  have hself : e.withRegisters e.machine.registers = e := rfl
  rw [hself] at hall
  rw [hall]
  cases j.registers.foldlM (fun (f : RegisterFile) (name, s) => f.seed name s)
      e.machine.registers with
  | error fault => rfl
  | ok f => exact Engine.seed_eq (e.withRegisters f) Register.eip.name { concrete := some j.entry }

/-! ### Seeded registers -/

/-- Registers with a number each, over the given variables. -/
structure RegisterFile.Seeded (V : Widths) (f : RegisterFile) : Prop where
  bits : ∀ r, (f.get r).bits = r.bits
  wellFormed : ∀ r, (f.get r).WellFormed V
  known : ∀ r, ∃ n, (f.get r).concrete = some n

theorem Register.bits_bounds (r : Register) : 0 < r.bits ∧ r.bits ≤ maxBits := by
  cases r <;> decide

theorem RegisterFile.get_ofVariables (first : Nat) (r : Register) :
    (ofVariables first).get r = .seeded 0 (.var r.bits (first + r.index)) := get_ofFn _ r

/-- Registers that are new variables are over the widths that these variables have. -/
theorem RegisterFile.seeded_ofVariables {V : Widths} {first : Nat}
    (hV : ∀ r : Register, V (first + r.index) r.bits) : (ofVariables first).Seeded V := by
  refine ⟨fun r => ?_, fun r => ?_, fun r => ?_⟩ <;> rw [get_ofVariables]
  · rfl
  · obtain ⟨hpos, hle⟩ := r.bits_bounds
    refine ⟨hpos, hle, fun n hn => ?_, fun t ht => ?_⟩
    · obtain rfl := Option.some.inj hn
      exact Word.truncate_lt _ _
    · obtain rfl := Option.some.inj ht
      exact ⟨Term.typed_var.2 ⟨hpos, hle, hV r⟩, rfl⟩
  · exact ⟨_, rfl⟩

/-- So are the registers of an engine that starts, where every variable counts as given out. -/
theorem RegisterFile.seeded_start :
    (ofVariables 0).Seeded (Widths.below (fun _ _ => True) Register.all.length) :=
  seeded_ofVariables fun r => ⟨trivial, by
    rw [Nat.zero_add]
    exact r.index.isLt⟩

/-- Registers that are new variables are zero where all variables are. -/
theorem RegisterFile.describes_ofVariables (first : Nat) (r : Register) :
    ((ofVariables first).get r).Describes (fun _ => 0) 0 := by
  have hzero : Word.truncate r.bits 0 = 0 := Word.truncate_of_lt (Word.count_pos _)
  rw [get_ofVariables]
  refine ⟨Word.count_pos _, fun m hm => ?_, fun i hi => ?_, fun t ht => ?_⟩
  · exact (Option.some.inj hm).symm.trans hzero
  · obtain rfl := Option.some.inj hi
    exact Interval.mem_top r.bits_bounds.2 (Word.count_pos _)
  · obtain rfl := Option.some.inj ht
    exact hzero

/-- The widths of the variables of an engine that started: those of the registers, and then
bytes. -/
def Register.widths : Widths := fun id w =>
  w = if h : id < 22 then (ofIndex ⟨id, h⟩).bits else 8

theorem Register.functional_widths : widths.Functional := by
  rintro id w w' rfl rfl
  rfl

theorem Register.fresh_widths : widths.Fresh all.length := by
  intro id hid
  have h : ¬ id < 22 := Nat.not_lt.2 hid
  unfold widths
  rw [dif_neg h]

theorem Register.widths_index (r : Register) : widths r.index r.bits := by
  unfold widths
  rw [dif_pos r.index.isLt]
  exact congrArg bits (ofIndex_index r).symm

theorem Register.name_of_named {r : Register} {name : String} (h : named name = .ok r) :
    r.name = name := by
  unfold named at h
  split at h
  · rename_i q hq
    obtain rfl := Except.ok.inj h
    have hname := List.find?_some hq
    simpa using hname
  · cases h

theorem RegisterFile.seed_ok {f f' : RegisterFile} {name : String} {s : Seed}
    (h : f.seed name s = .ok f') : ∃ r, r.name = name ∧ f' = f.set r (s.apply (f.get r)) := by
  obtain ⟨r, hr, h⟩ := bind_eq_ok h
  obtain ⟨⟨v, f''⟩, hreplace, h⟩ := bind_eq_ok h
  obtain ⟨r', hr', hreplace⟩ := bind_eq_ok hreplace
  obtain rfl := Except.ok.inj (hr.symm.trans hr')
  refine ⟨r, Register.name_of_named hr, ?_⟩
  split at hreplace
  · cases hreplace
    exact (Except.ok.inj h).symm
  · cases hreplace

section

variable {V : Widths} {v : Value}

@[simp] theorem Seed.bits_apply (s : Seed) (v : Value) : (s.apply v).bits = v.bits := by
  unfold apply
  cases s.concrete <;> cases s.interval <;> rfl

@[simp] theorem Seed.symbolic_apply (s : Seed) (v : Value) :
    (s.apply v).symbolic = v.symbolic := by
  unfold apply
  cases s.concrete <;> cases s.interval <;> rfl

theorem Seed.interval_apply {s : Seed} (hs : s.interval = none) (v : Value) :
    (s.apply v).interval = v.interval := by
  unfold apply
  rw [hs]
  cases s.concrete <;> rfl

theorem Seed.wellFormed_apply (s : Seed) (hv : v.WellFormed V) : (s.apply v).WellFormed V := by
  have hconcrete (n : Nat) := Value.wellFormed_setConcrete hv n
  unfold apply
  cases s.concrete with
  | none =>
    cases s.interval with
    | none => exact hv
    | some i => exact ⟨hv.pos, hv.le, hv.concrete, hv.symbolic⟩
  | some n =>
    cases s.interval with
    | none => exact hconcrete n
    | some i =>
      exact ⟨hv.pos, hv.le, (hconcrete n).concrete, hv.symbolic⟩

theorem Seed.known_apply (s : Seed) (hv : ∃ n, v.concrete = some n) :
    ∃ n, (s.apply v).concrete = some n := by
  unfold apply
  cases s.concrete <;> cases s.interval
  · exact hv
  · exact hv
  · exact ⟨_, rfl⟩
  · exact ⟨_, rfl⟩

theorem RegisterFile.Seeded.seed {f f' : RegisterFile} {name : String} {s : Seed}
    (h : f.Seeded V) (hseed : f.seed name s = .ok f') : f'.Seeded V := by
  obtain ⟨r, -, rfl⟩ := seed_ok hseed
  refine ⟨fun x => ?_, fun x => ?_, fun x => ?_⟩ <;> rw [get_set] <;> by_cases hx : x = r
  · rw [if_pos hx, Seed.bits_apply, hx]
    exact h.bits r
  · rw [if_neg hx]
    exact h.bits x
  · rw [if_pos hx]
    exact s.wellFormed_apply (h.wellFormed r)
  · rw [if_neg hx]
    exact h.wellFormed x
  · rw [if_pos hx]
    exact s.known_apply (h.known r)
  · rw [if_neg hx]
    exact h.known x

theorem Job.induction_seedRegisters {P : RegisterFile → Prop} {j : Job} {f f' : RegisterFile}
    (hP : ∀ {f f' : RegisterFile} {name : String} {s : Seed}, P f → f.seed name s = .ok f' → P f')
    (h : P f) (hseed : j.seedRegisters f = .ok f') : P f' := by
  obtain ⟨f₁, hfold, hlast⟩ := bind_eq_ok hseed
  refine hP ?_ hlast
  generalize j.registers = seeds at hfold
  clear hseed
  induction seeds generalizing f with
  | nil =>
    obtain rfl := Except.ok.inj hfold
    exact h
  | cons p seeds ih =>
    rw [List.foldlM_cons] at hfold
    obtain ⟨f₂, hfirst, hrest⟩ := bind_eq_ok hfold
    exact ih (hP h hfirst) hrest

theorem Job.seeded_seedRegisters {j : Job} {f f' : RegisterFile} (h : f.Seeded V)
    (hseed : j.seedRegisters f = .ok f') : f'.Seeded V :=
  induction_seedRegisters RegisterFile.Seeded.seed h hseed

theorem Job.symbolic_seedRegisters {j : Job} {f f' : RegisterFile}
    (hseed : j.seedRegisters f = .ok f') (r : Register) :
    (f'.get r).symbolic = (f.get r).symbolic := by
  refine induction_seedRegisters (P := fun f' => (f'.get r).symbolic = (f.get r).symbolic)
    (fun {f₁ f₂ name s} h₁ h₂ => ?_) rfl hseed
  obtain ⟨r', -, rfl⟩ := RegisterFile.seed_ok h₂
  rw [RegisterFile.get_set, ← h₁]
  split
  · rename_i hr
    rw [Seed.symbolic_apply, hr]
  · rfl

/-- Seeds that give a register no range keep the one that it has. -/
theorem Job.interval_seedRegisters {j : Job} {f f' : RegisterFile}
    (hseed : j.seedRegisters f = .ok f') {r : Register}
    (hr : ∀ p ∈ j.registers, p.1 = r.name → p.2.interval = none) :
    (f'.get r).interval = (f.get r).interval := by
  have hstep {f f' : RegisterFile} {name : String} {s : Seed}
      (hs : name = r.name → s.interval = none) (h : f.seed name s = .ok f') :
      (f'.get r).interval = (f.get r).interval := by
    obtain ⟨q, hq, rfl⟩ := RegisterFile.seed_ok h
    rw [RegisterFile.get_set]
    split
    · rename_i heq
      rw [← heq, Seed.interval_apply (hs (by rw [← hq, heq]))]
    · rfl
  obtain ⟨f₁, hfold, hlast⟩ := bind_eq_ok hseed
  refine (hstep (fun _ => rfl) hlast).trans ?_
  clear hseed hlast
  generalize j.registers = seeds at hfold hr
  induction seeds generalizing f with
  | nil =>
    obtain rfl := Except.ok.inj hfold
    rfl
  | cons p seeds ih =>
    obtain ⟨hp, hseeds⟩ := List.forall_mem_cons.1 hr
    rw [List.foldlM_cons] at hfold
    obtain ⟨f₂, hfirst, hrest⟩ := bind_eq_ok hfold
    exact (ih hrest hseeds).trans (hstep hp hfirst)

end

/-! ### Engines at the start -/

/-- The engine with another journal. -/
def Engine.withJournal {σ : Type} (e : Engine σ) (journal : Journal) : Engine σ :=
  e.withSymbolic { e.machine.symbolic with journal }

/-- An engine at the start is idle, with registers of which each has a number. -/
theorem Engine.start_settled {σ : Type} (bus : Bus) (config : Config) (solver : Option σ)
    (journal : Journal) {V : Widths} {f : RegisterFile}
    (hf : f.Seeded (V.below Register.all.length)) :
    (((start bus config solver).withJournal journal).withRegisters f).Settled V where
  ready := ⟨rfl, nofun, List.forall_mem_nil _, hf.bits, hf.wellFormed, hf.known⟩
  staged := rfl
  allowed := by
    show (config.allowed.insert .concrete).contains .concrete = true
    rw [DomainSet.contains_insert]
    rfl
  idle _ := rfl
  triggered := nofun

end Lockstep
