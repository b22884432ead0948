/-
# Triggered instructions

Before an instruction the governor chooses the domains and the address is set
in all of them; after it the allowed domains are active again. Neither shows
in the concrete machine, and domains that agree go on to agree, as there are
only ever fewer of them. So an instruction has the outcome of the concrete
machine in every phase.

Key definitions: `Engine.Alike`, `Engine.Located`, `Engine.Settled`, `Engine.Entered`,
`Engine.Executed`.
Key theorems: `Engine.trigger_located`, `Engine.beforeInstruction_entered`,
`Engine.execute_executed`.
-/
import Lockstep.Proofs.Engine.Perform

namespace Lockstep

/-! ### The governor -/

namespace Governor

theorem isTriggered_checkComplexity (g : Governor) (n : Nat) :
    (g.checkComplexity n).isTriggered = g.isTriggered := rfl

theorem allowed_of_checkComplexity {g : Governor} {n : Nat} {x : Domain}
    (h : (g.checkComplexity n).allowed.contains x = true) : g.allowed.contains x = true := by
  change DomainSet.contains (if g.exceeds n then _ else _) x = true at h
  split at h
  · rw [DomainSet.contains_erase] at h
    exact (Bool.and_eq_true_iff.1 h).2
  · exact h

/-- A look at the complexity never costs a run the concrete domain. -/
theorem concrete_checkComplexity {g : Governor} (h : g.allowed.contains .concrete = true)
    (n : Nat) : (g.checkComplexity n).allowed.contains .concrete = true := by
  show DomainSet.contains (if g.exceeds n then _ else _) .concrete = true
  split
  · rw [DomainSet.contains_erase, h]
    rfl
  · exact h

end Governor

namespace Engine

variable {σ : Type} {V : Widths} {e e' e'' : Engine σ}

/-- The engine with the given domains active and the given governor. -/
def under (e : Engine σ) (d : DomainSet) (g : Governor) : Engine σ :=
  { e with machine := { e.machine with active := d }, governor := g }

/-! ### Engines alike -/

/-- Engines that differ in events, in the solver and in reports only. -/
structure Alike (e e' : Engine σ) : Prop where
  active : e'.machine.active = e.machine.active
  registers : e'.machine.registers = e.machine.registers
  bus : e'.machine.bus = e.machine.bus
  staged : e'.machine.staged = e.machine.staged
  next : e'.machine.symbolic.nextVariable = e.machine.symbolic.nextVariable
  log : e'.log = e.log
  governor : e'.governor = e.governor
  lastTrap : e'.lastTrap = e.lastTrap

theorem Alike.refl (e : Engine σ) : Alike e e := ⟨rfl, rfl, rfl, rfl, rfl, rfl, rfl, rfl⟩

theorem Alike.trans (h : Alike e e') (h' : Alike e' e'') : Alike e e'' :=
  ⟨h'.active.trans h.active, h'.registers.trans h.registers, h'.bus.trans h.bus,
    h'.staged.trans h.staged, h'.next.trans h.next, h'.log.trans h.log,
    h'.governor.trans h.governor, h'.lastTrap.trans h.lastTrap⟩

theorem Alike.under (h : Alike e e') (d : DomainSet) (g : Governor) :
    Alike (e.under d g) (e'.under d g) :=
  ⟨rfl, h.registers, h.bus, h.staged, h.next, h.log, rfl, h.lastTrap⟩

theorem Alike.written (h : Alike e e') (r : Register) (v : Value) :
    Alike (e.written r v) (e'.written r v) := by
  refine ⟨h.active, ?_, h.bus, h.staged, h.next, h.log, h.governor, h.lastTrap⟩
  unfold Engine.written
  rw [h.registers, h.active]

theorem Alike.widths (h : Alike e e') : e'.widths V = e.widths V := by
  unfold Engine.widths
  rw [h.next]

theorem Alike.registerNumber (h : Alike e e') : e'.registerNumber = e.registerNumber := by
  unfold Engine.registerNumber
  rw [h.registers]

theorem Alike.concreteState (h : Alike e e') : e'.concreteState = e.concreteState := by
  unfold Engine.concreteState
  rw [h.registerNumber, h.bus, h.staged, h.lastTrap]

theorem Ready.alike (he : e.Ready V) (h : Alike e e') : e'.Ready V := by
  obtain ⟨h1, h2, h3, h4, h5, h6⟩ := he
  constructor <;> simp only [h.active, h.governor, h.log, h.widths, h.registers] <;> assumption

theorem Agrees.alike {ρ : Assignment} (ha : e.Agrees ρ) (h : Alike e e') : e'.Agrees ρ := by
  unfold Agrees
  rw [h.registerNumber, h.active, h.registers]
  exact ha

theorem Consistent.alike {start : Bus} {ρ : Assignment} (hc : e.Consistent start ρ)
    (h : Alike e e') : e'.Consistent start ρ := by
  refine ⟨hc.registers.alike h, ?_⟩
  unfold Mirrors
  rw [h.active, h.bus, h.log, h.staged]
  exact hc.log

theorem note_alike (e : Engine σ) (level : Level) (message : Unit → String) :
    ∃ e', note level message e = (.ok (), e') ∧ Alike e e' :=
  ⟨_, rfl, rfl, rfl, rfl, rfl, rfl, rfl, rfl, rfl⟩

theorem reportUsage_alike [Solver σ] (e : Engine σ) :
    ∃ e', reportUsage e = (.ok (), e') ∧ Alike e e' := by
  unfold reportUsage
  rw [apply_bind_ok (apply_get e)]
  cases e.machine.symbolic.usage? with
  | none => exact ⟨e, rfl, .refl e⟩
  | some usage =>
    dsimp only
    by_cases hcalls : usage.calls ≠ 0
    · rw [if_pos hcalls]
      exact ⟨_, rfl, rfl, rfl, rfl, rfl, rfl, rfl, rfl, rfl⟩
    · rw [if_neg hcalls]
      exact ⟨e, rfl, .refl e⟩

/-! ### Other active domains -/

theorem Ready.under {d : DomainSet} {g : Governor} (he : e.Ready V)
    (hd : d.contains .concrete = true) (hg : d.contains .symbolic = true → g.isTriggered = true) :
    (e.under d g).Ready V :=
  ⟨hd, hg, he.cells, he.bits, he.registers, he.known⟩

/-- Domains that agree still do when some of them are no longer active. -/
theorem Consistent.under {start : Bus} {ρ : Assignment} {d : DomainSet} (g : Governor)
    (h : e.Consistent start ρ)
    (hsub : ∀ x, d.contains x = true → e.machine.active.contains x = true) :
    (e.under d g).Consistent start ρ :=
  ⟨fun r => Value.describes_restrict_of_sub hsub (h.registers r), fun hsym => h.log (hsub _ hsym)⟩

/-- **The domains agree but for the address of the next instruction**, which every instruction
sets anew before it runs. -/
structure ConsistentElsewhere (start : Bus) (ρ : Assignment) (e : Engine σ) : Prop where
  registers : ∀ r, r ≠ .eip →
    ((e.machine.registers.get r).restrict e.machine.active).Describes ρ (e.registerNumber r)
  log : e.machine.active.contains .symbolic = true → e.Mirrors start ρ

theorem Consistent.elsewhere {start : Bus} {ρ : Assignment} (h : e.Consistent start ρ) :
    e.ConsistentElsewhere start ρ :=
  ⟨fun r _ => h.registers r, h.log⟩

theorem ConsistentElsewhere.under {start : Bus} {ρ : Assignment} {d : DomainSet} (g : Governor)
    (h : e.ConsistentElsewhere start ρ)
    (hsub : ∀ x, d.contains x = true → e.machine.active.contains x = true) :
    (e.under d g).ConsistentElsewhere start ρ :=
  ⟨fun r hr => Value.describes_restrict_of_sub hsub (h.registers r hr),
    fun hsym => h.log (hsub _ hsym)⟩

/-- What is left is to set the address of the next instruction in the given domains. -/
def Located (e : Engine σ) (d : DomainSet) (address : Nat) (e' : Engine σ) : Prop :=
  ∃ v, Value.number d addressBits address = .ok v ∧
    Alike ((e.under d e'.governor).written .eip v) e'

section

variable {d : DomainSet} {address : Nat}

theorem number_address (V : Widths) (d : DomainSet) (address : Nat) :
    ∃ v, Value.number d addressBits address = .ok v ∧
      v.Shape V d addressBits (some (Word.truncate addressBits address)) ∧
      ∀ ρ, v.Describes ρ (Word.truncate addressBits address) :=
  Value.number_ok d (by decide) (by decide) address

theorem Located.elim (h : e.Located d address e') (V : Widths)
    (hd : d.contains .concrete = true) :
    ∃ v, Alike ((e.under d e'.governor).written .eip v) e' ∧ v.WellFormed V ∧
      v.bits = Register.eip.bits ∧ v.concrete = some (Word.truncate addressBits address) ∧
      ∀ ρ, v.Describes ρ (Word.truncate addressBits address) := by
  obtain ⟨v, hv, halike⟩ := h
  obtain ⟨u, hu, hshape, hdesc⟩ := number_address V d address
  obtain rfl := Except.ok.inj (hv.symm.trans hu)
  refine ⟨v, halike, hshape.wellFormed, hshape.bits, ?_, hdesc⟩
  rw [hshape.concrete]
  exact Value.only_eq_some.2 ⟨hd, rfl⟩

variable (h : e.Located d address e') (he : e.Ready V) (hd : d.contains .concrete = true)
  (hg : d.contains .symbolic = true → e'.governor.isTriggered = true)

include h

theorem Located.active : e'.machine.active = d := by
  obtain ⟨v, -, halike⟩ := h
  exact halike.active

theorem Located.next : e'.machine.symbolic.nextVariable = e.machine.symbolic.nextVariable := by
  obtain ⟨v, -, halike⟩ := h
  exact halike.next

theorem Located.staged : e'.machine.staged = e.machine.staged := by
  obtain ⟨v, -, halike⟩ := h
  exact halike.staged

include he hd

/-- What the active domains know of the next address is the given one. -/
theorem Located.describes (ρ : Assignment) :
    (e'.machine.readRegister .eip).Describes ρ (Word.truncate addressBits address) := by
  obtain ⟨v, halike, hwf, hbits, hn, hdesc⟩ := h.elim V hd
  have heip : (((e.under d e'.governor).written .eip v).machine.registers.get .eip).restrict d =
      v.restrict d := by
    rw [get_written, if_pos rfl]
    exact Value.restrict_takeParts (hbits.trans (he.bits .eip).symm) d
  unfold Machine.readRegister
  rw [halike.registers, h.active, heip]
  exact Value.describes_restrict (hdesc ρ) d

include hg

theorem Located.ready : e'.Ready V := by
  obtain ⟨v, halike, hwf, hbits, hn, -⟩ := h.elim (e.widths V) hd
  exact ((he.under hd hg).written hwf hbits hn).alike halike

theorem Located.concreteState :
    e'.concreteState = e.concreteState.set .eip (Word.truncate addressBits address) := by
  obtain ⟨v, halike, -, -, hn, -⟩ := h.elim V hd
  exact halike.concreteState.trans (concreteState_written (he.under hd hg) hn)

theorem Located.consistent {start : Bus} {ρ : Assignment} (hc : e.ConsistentElsewhere start ρ)
    (hsub : ∀ x, d.contains x = true → e.machine.active.contains x = true) :
    e'.Consistent start ρ := by
  obtain ⟨v, halike, -, hbits, hn, hdesc⟩ := h.elim V hd
  have hunder := hc.under e'.governor hsub
  have hregisters := agrees_written (he.under hd hg) hunder.registers hbits hn (hdesc ρ)
  have hwritten : ((e.under d e'.governor).written .eip v).Consistent start ρ :=
    ⟨hregisters, hunder.log⟩
  exact hwritten.alike halike

end

/-! ### The address of an instruction -/

/-- A part of a value that pins down a number pins down the one that is described. -/
theorem addressIn_eq {ρ : Assignment} {v : Value} {n m : Nat} (h : v.Describes ρ n)
    (hle : v.bits ≤ maxBits) {x : Domain} (hm : addressIn v x = some m) : m = n := by
  cases x with
  | concrete => exact h.concrete m hm
  | interval =>
    obtain ⟨i, hi, hs⟩ := Option.bind_eq_some_iff.1 hm
    exact Interval.singleton?_eq hle (h.interval i hi) hs
  | symbolic =>
    obtain ⟨t, ht, hc⟩ := Option.bind_eq_some_iff.1 hm
    rw [← h.symbolic t ht, Term.eval_of_const? hc]

theorem checkAddress_ok (he : e.Ready V) {ρ : Assignment} {address : Nat}
    (h : (e.machine.readRegister .eip).Describes ρ address) :
    checkAddress e.machine address = .ok () := by
  unfold checkAddress
  induction e.machine.active.toList with
  | nil => rfl
  | cons x xs ih =>
    show (_ >>= fun _ => xs.forM _) = _
    beta_reduce
    cases hm : addressIn (e.machine.readRegister .eip) x with
    | none => exact ih
    | some m =>
      rw [addressIn_eq h (he.registers .eip).le hm]
      dsimp only
      rw [if_pos rfl]
      exact ih

theorem Ready.registerNumber_lt (he : e.Ready V) (r : Register) :
    e.registerNumber r < Word.count r.bits := by
  have hlt := (he.registers r).concrete _ (he.registerNumber r)
  rwa [he.bits r] at hlt

/-- In the concrete domain alone a register describes its number. -/
theorem Ready.describes_concreteOnly (he : e.Ready V)
    (hactive : e.machine.active = .concreteOnly) (ρ : Assignment) (r : Register) :
    (e.machine.readRegister r).Describes ρ (e.registerNumber r) := by
  unfold Machine.readRegister
  rw [hactive]
  refine ⟨(he.registers r).concrete _ (he.registerNumber r), fun m hm => ?_, nofun, nofun⟩
  exact Option.some.inj (hm.symm.trans (he.registerNumber r))

/-! ### The trigger and the governor -/

theorem writeAddress_eq {address : Nat} {v : Value}
    (hbits : (e.machine.registers.get .eip).bits = Register.eip.bits)
    (hv : Value.number e.machine.active addressBits address = .ok v) :
    writeAddress address e = (.ok (), e.written .eip v) := by
  obtain ⟨u, hu, hshape, -⟩ := number_address (fun _ _ => True) e.machine.active address
  obtain rfl := Except.ok.inj (hv.symm.trans hu)
  refine updateMachine_ok ?_
  rw [hv]
  exact writeRegister_ok hbits hshape.bits

/-- The first trigger notes an event, and sets the address in the allowed domains. -/
theorem trigger_of_idle (hidle : e.governor.isTriggered = false) (target : Nat) :
    ∃ j, trigger target e = writeAddress target
      ((e.withSymbolic { e.machine.symbolic with journal := j }).under e.governor.allowed
        e.governor.trigger) := by
  obtain ⟨j, hnote⟩ := note_journal { e with governor := e.governor.trigger } .info fun _ =>
    "triggered at " ++ hexAddress target ++ ", domains " ++ e.governor.allowed.text
  refine ⟨j, ?_⟩
  unfold trigger
  rw [apply_bind_ok (apply_get e), hidle, if_neg Bool.false_ne_true,
    apply_bind_ok (apply_modify _ e), apply_bind_ok hnote]
  exact apply_bind_ok (apply_modify _ _) _

/-- The first trigger activates the allowed domains at the target. -/
theorem trigger_located (he : e.Ready V) (hidle : e.governor.isTriggered = false) (target : Nat) :
    ∃ e', trigger target e = (.ok (), e') ∧ e'.governor = e.governor.trigger ∧
      e.Located e.governor.allowed target e' := by
  obtain ⟨v, hv, -⟩ := number_address V e.governor.allowed target
  obtain ⟨j, hact⟩ := trigger_of_idle hidle target
  exact ⟨_, hact.trans (writeAddress_eq (he.bits .eip) hv), rfl, v, hv, rfl, rfl, rfl, rfl, rfl,
    rfl, rfl, rfl⟩

theorem trigger_of_isTriggered (h : e.governor.isTriggered = true) (target : Nat) :
    trigger target e = (.ok (), e) := by
  unfold trigger
  rw [apply_bind_ok (apply_get e), h]
  rfl

theorem afterInstruction_alike (htrig : e.governor.isTriggered = true) (i : Instruction) :
    ∃ e', afterInstruction i e = (.ok (), e') ∧
      Alike (e.under e.governor.allowed e.governor) e' := by
  unfold afterInstruction
  rw [apply_bind_ok (apply_get e), htrig, if_pos rfl]
  obtain ⟨e₁, hnote, h₁⟩ := note_alike e .debug fun _ =>
    "after " ++ hexAddress i.address ++ " " ++ i.text ++ ":\n" ++ e.snapshot.text
  rw [apply_bind_ok hnote]
  exact ⟨e₁.under e.governor.allowed e₁.governor, rfl, by
    rw [h₁.governor]
    exact h₁.under e.governor.allowed e.governor⟩

variable [Solver σ]

/-- The governor's last part before an instruction: the given domains become active, the
address is set in them, and the clock ticks. -/
theorem engage_located (he : e.Ready V) (d : DomainSet) (address : Nat) {g : Governor}
    (halike : Alike { e with governor := g } e') :
    ∃ e'', (do
        setActive d
        writeAddress address
        modify fun e => { e with governor := e.governor.tick }
        if (← get).governor.reportDue then reportUsage : EngineM σ Unit) e' = (.ok (), e'') ∧
      e''.governor = g.tick ∧ e.Located d address e'' := by
  obtain ⟨v, hv, -⟩ := number_address V d address
  let e₁ := e'.under d e'.governor
  have heip : (e₁.machine.registers.get .eip).bits = Register.eip.bits := by
    show (e'.machine.registers.get .eip).bits = _
    rw [halike.registers]
    exact he.bits .eip
  let e₂ := (e'.under d e'.governor.tick).written .eip v
  have h₂ : Alike ((e.under d g.tick).written .eip v) e₂ := by
    show Alike _ ((e'.under d e'.governor.tick).written .eip v)
    rw [halike.governor]
    exact (halike.under d g.tick).written .eip v
  have hset : setActive d e' = (.ok (), e₁) := rfl
  have htick : (modify fun e : Engine σ => { e with governor := e.governor.tick } :
      EngineM σ PUnit) (e₁.written .eip v) = (.ok (), e₂) := rfl
  rw [apply_bind_ok hset, apply_bind_ok (writeAddress_eq heip hv), apply_bind_ok htick,
    apply_bind_ok (apply_get e₂)]
  cases e₂.governor.reportDue with
  | false => exact ⟨e₂, rfl, h₂.governor, v, hv, by rw [h₂.governor]; exact h₂⟩
  | true =>
    obtain ⟨e₃, hreport, h₃⟩ := reportUsage_alike e₂
    have h₃ := h₂.trans h₃
    exact ⟨e₃, hreport, h₃.governor, v, hv, by rw [h₃.governor]; exact h₃⟩

/-- Before an instruction the domains are chosen for it, and its address is set in them. -/
theorem beforeInstruction_located (he : e.Ready V) (htrig : e.governor.isTriggered = true)
    (i : Instruction) :
    ∃ e', beforeInstruction i e = (.ok (), e') ∧
      e'.governor = (e.governor.checkComplexity e.complexity).tick ∧
      e.Located (if i.kind.isTrap then .concreteOnly else e'.governor.allowed) i.address e' := by
  let g := e.governor.checkComplexity e.complexity
  have hrest {e₁ : Engine σ} (halike : Alike { e with governor := g } e₁) :=
    engage_located he (if i.kind.isTrap then .concreteOnly else g.allowed) i.address halike
  unfold beforeInstruction
  rw [apply_bind_ok (apply_get e), htrig, if_pos rfl]
  dsimp only
  rw [apply_bind_ok (apply_modify _ e)]
  by_cases hexceeds : e.governor.exceeds e.complexity = true
  · rw [if_pos hexceeds]
    obtain ⟨e₁, hnote, h₁⟩ := note_alike { e with governor := g } .info fun _ =>
      s!"symbolic complexity {e.complexity} exceeds {e.governor.threshold}; " ++
        "symbolic domain disabled"
    obtain ⟨e', hact, hg, hlocated⟩ := hrest h₁
    rw [apply_bind_ok hnote, apply_bind_ok (apply_get e₁), h₁.governor]
    exact ⟨e', hact, hg, by rw [hg]; exact hlocated⟩
  · rw [if_neg hexceeds, apply_bind_ok (apply_get _)]
    obtain ⟨e', hact, hg, hlocated⟩ := hrest (.refl _)
    exact ⟨e', hact, hg, by rw [hg]; exact hlocated⟩

/-! ### Whole instructions -/

/-- An engine between two instructions: nothing is staged; an idle one works in the concrete
domain alone, a triggered one in the allowed domains. -/
structure Settled (V : Widths) (e : Engine σ) : Prop where
  ready : e.Ready V
  staged : e.machine.staged = none
  allowed : e.governor.allowed.contains .concrete = true
  idle : e.governor.isTriggered = false → e.machine.active = .concreteOnly
  triggered : e.governor.isTriggered = true → e.machine.active = e.governor.allowed

/-- A triggered engine that is about to step: the domains are chosen for the instruction, the
concrete one among them, and its address is set in them. -/
structure Entered (V : Widths) (e : Engine σ) (i : Instruction) (e₁ : Engine σ) : Prop where
  governor : e₁.governor = (e.governor.checkComplexity e.complexity).tick
  triggered : e₁.governor.isTriggered = true
  allowed : e₁.governor.allowed.contains .concrete = true
  located : e.Located (if i.kind.isTrap then .concreteOnly else e₁.governor.allowed) i.address e₁
  ready : e₁.Ready V
  staged : e₁.machine.staged = none

/-- **Before an instruction** nothing fails. -/
theorem beforeInstruction_entered (h : e.Settled V) (htrig : e.governor.isTriggered = true)
    (i : Instruction) : ∃ e₁, beforeInstruction i e = (.ok (), e₁) ∧ Entered V e i e₁ := by
  obtain ⟨e₁, hbefore, hg, hlocated⟩ := beforeInstruction_located h.ready htrig i
  have htrig₁ : e₁.governor.isTriggered = true := by
    rw [hg]
    exact (Governor.isTriggered_checkComplexity e.governor e.complexity).trans htrig
  have hallowed₁ : e₁.governor.allowed.contains .concrete = true := by
    rw [hg]
    exact Governor.concrete_checkComplexity h.allowed _
  have hd : (if i.kind.isTrap then DomainSet.concreteOnly
      else e₁.governor.allowed).contains .concrete = true := by
    split
    · rfl
    · exact hallowed₁
  exact ⟨e₁, hbefore, hg, htrig₁, hallowed₁, hlocated, hlocated.ready h.ready hd fun _ => htrig₁,
    hlocated.staged.trans h.staged⟩

/-- The outcome of an instruction. Every phase has the one of the concrete machine, no domain is
allowed anew, and after the trigger domains that agree, but for the address of the instruction,
agree afterwards. -/
structure Executed (V : Widths) (e : Engine σ) (i : Instruction)
    (out : Except Fault Unit × Engine σ) : Prop where
  settled : out.2.Settled V
  le : e.machine.symbolic.nextVariable ≤ out.2.machine.symbolic.nextVariable
  phase : out.2.governor.isTriggered = e.governor.isTriggered
  allowed : ∀ x, out.2.governor.allowed.contains x = true → e.governor.allowed.contains x = true
  concrete : i.WideAddresses → e.registerNumber .eip = i.address →
    e.concreteState.step i = (out.1, out.2.concreteState)
  sound : e.governor.isTriggered = true → i.kind = .other → ∀ (start : Bus) (ρ : Assignment),
    Solver.RightOver σ V → e.ConsistentElsewhere start ρ →
    ∃ ρ', ρ.AgreesOutside e.machine.symbolic.nextVariable
        out.2.machine.symbolic.nextVariable ρ' ∧ out.2.Consistent start ρ'

theorem execute_idle {i : Instruction} (hdef : i.Defined)
    (hfresh : V.Fresh e.machine.symbolic.nextVariable) (h : e.Settled V)
    (hidle : e.governor.isTriggered = false) : Executed V e i (execute i e) := by
  have hact : execute i e = step i e := by
    unfold execute
    rw [apply_bind_ok (apply_get e), hidle]
    rfl
  have hstep := step_stepped hdef hfresh h.ready h.staged
  rw [hact]
  refine ⟨⟨hstep.ready, hstep.staged, by rw [hstep.governor]; exact h.allowed, fun _ => ?_,
    fun htrig => ?_⟩, hstep.le, by rw [hstep.governor], by rw [hstep.governor]; exact fun _ => id,
    fun hwide haddress => ?_, fun htrig => ?_⟩
  · rw [hstep.active]
    exact h.idle hidle
  · rw [hstep.governor, hidle] at htrig
    cases htrig
  · refine hstep.result ⟨hwide, checkAddress_ok h.ready (ρ := fun _ => 0) ?_⟩
    rw [← haddress]
    exact h.ready.describes_concreteOnly (h.idle hidle) _ .eip
  · rw [hidle] at htrig
    cases htrig

/-- A triggered instruction is a step between the looks of the governor. -/
theorem execute_eq {i : Instruction} {e₁ e₂ : Engine σ} {r : Except Fault Unit}
    (htrig : e.governor.isTriggered = true) (hbefore : beforeInstruction i e = (.ok (), e₁))
    (hstep : step i e₁ = (r, e₂)) (htrig₂ : e₂.governor.isTriggered = true) :
    ∃ e', execute i e = (r, e') ∧ Alike (e₂.under e₂.governor.allowed e₂.governor) e' := by
  have hboth : (beforeInstruction i *> step i) e = (r, e₂) := (apply_bind_ok hbefore _).trans hstep
  unfold execute
  rw [apply_bind_ok (apply_get e), htrig, Bool.not_true, if_neg Bool.false_ne_true,
    apply_bind_ok (apply_lift_run hboth)]
  cases r with
  | ok _ =>
    obtain ⟨e', hafter, halike⟩ := afterInstruction_alike htrig₂ i
    exact ⟨e', apply_bind_ok hafter _, halike⟩
  | error f =>
    obtain ⟨e₃, hnote, h₃⟩ := note_alike e₂ .warn fun _ =>
      hexAddress i.address ++ " " ++ i.text ++ ": " ++ f.message
    obtain ⟨e', hafter, halike⟩ := afterInstruction_alike (h₃.governor ▸ htrig₂) i
    dsimp only
    rw [apply_bind_ok hnote, apply_bind_ok hafter]
    rw [h₃.governor] at halike
    exact ⟨e', rfl, (h₃.under _ _).trans halike⟩

theorem execute_triggered {i : Instruction} (hdef : i.Defined)
    (hfresh : V.Fresh e.machine.symbolic.nextVariable) (h : e.Settled V)
    (htrig : e.governor.isTriggered = true) : Executed V e i (execute i e) := by
  obtain ⟨e₁, hbefore, hg, htrig₁, hallowed₁, hlocated, hready₁, hstaged₁⟩ :=
    beforeInstruction_entered h htrig i
  have hallowed : ∀ x, e₁.governor.allowed.contains x = true →
      e.governor.allowed.contains x = true := fun x hx => by
    rw [hg] at hx
    exact Governor.allowed_of_checkComplexity hx
  have hstep := step_stepped hdef (by rw [hlocated.next]; exact hfresh) hready₁ hstaged₁
  have hnext := hlocated.next
  have hactive := hlocated.active
  have hd := hready₁.concrete
  rw [hactive] at hd
  have hstate := hlocated.concreteState h.ready hd fun _ => htrig₁
  rcases hout : step i e₁ with ⟨r, e₂⟩
  rw [hout] at hstep
  have hg₂ : e₂.governor = e₁.governor := hstep.governor
  obtain ⟨e₃, hact, halike⟩ := execute_eq htrig hbefore hout (hg₂ ▸ htrig₁)
  rw [hg₂] at halike
  have hready₃ := (hstep.ready.under hallowed₁ fun _ => htrig₁).alike halike
  have hg₃ : e₃.governor = e₁.governor := halike.governor
  have hnext₃ : e₃.machine.symbolic.nextVariable = e₂.machine.symbolic.nextVariable :=
    halike.next
  rw [hact]
  refine ⟨⟨hready₃, halike.staged.trans hstep.staged, by rw [hg₃]; exact hallowed₁, fun hidle => ?_,
    fun _ => by rw [hg₃]; exact halike.active⟩, ?_, ?_, ?_, fun hwide haddress => ?_,
    fun _ hkind start ρ hsolver hcons => ?_⟩
  · rw [hg₃, htrig₁] at hidle
    cases hidle
  · rw [hnext₃, ← hnext]
    exact hstep.le
  · rw [hg₃, htrig₁, htrig]
  · intro x hx
    rw [hg₃] at hx
    exact hallowed x hx
  · have htruncate : Word.truncate addressBits i.address = e.registerNumber .eip := by
      rw [← haddress]
      exact Word.truncate_of_lt (h.ready.registerNumber_lt .eip)
    have hdesc := hlocated.describes h.ready hd fun _ => 0
    rw [htruncate] at hstate hdesc
    have hsame : e₁.concreteState = e.concreteState := hstate.trans (Concrete.State.set_self _ _)
    have hresult := hstep.result ⟨hwide, checkAddress_ok hready₁ (haddress ▸ hdesc)⟩
    rw [hsame] at hresult
    rw [hresult]
    exact congrArg (Prod.mk r) halike.concreteState.symm
  · rw [hkind] at hlocated hactive hd
    have hsub : ∀ x, e₁.governor.allowed.contains x = true →
        e.machine.active.contains x = true := fun x hx => by
      rw [h.triggered htrig]
      exact hallowed x hx
    obtain ⟨ρ', hρ', hcons'⟩ := hstep.sound start ρ hsolver
      (hlocated.consistent h.ready hd (fun _ => htrig₁) hcons hsub)
    refine ⟨ρ', ?_, (hcons'.under e₁.governor fun x hx => ?_).alike halike⟩
    · rw [hnext₃, ← hnext]
      exact hρ'
    · rw [hstep.active, hactive]
      exact hx

/-- **An instruction**, in every phase. -/
theorem execute_executed {i : Instruction} (hdef : i.Defined)
    (hfresh : V.Fresh e.machine.symbolic.nextVariable) (h : e.Settled V) :
    Executed V e i (execute i e) := by
  cases hphase : e.governor.isTriggered with
  | false => exact execute_idle hdef hfresh h hphase
  | true => exact execute_triggered hdef hfresh h hphase

end Engine
end Lockstep
