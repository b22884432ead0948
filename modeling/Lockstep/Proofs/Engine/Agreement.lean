/-
# The domains agree

After the trigger the allowed domains describe one machine, whatever is
executed and whether it succeeds: under an assignment that only ever grows,
every register describes one number in all of them, and the cells of the log,
replayed on the bus of the moment of the trigger, make the present bus. Reads
make variables, and the assignment grows by what the bus has for them.

Key definitions: `Engine.JustTriggered`, `Engine.Compatible`, `Engine.Replays`,
`Engine.executeAll`, `Engine.Throughout`.
Key theorems: `Engine.executeAll_consistent`, `Engine.executeAll_agrees`,
`Engine.Replays.readByte`, `Engine.trigger_justTriggered`.
-/
import Lockstep.Proofs.Run.Seeds

namespace Lockstep
namespace Engine

variable {σ : Type} {V : Widths} {e : Engine σ} {start : Bus} {ρ : Assignment}

/-- An engine after its trigger and before any instruction. Its registers are over variables
in use, and each has a number. -/
structure JustTriggered (V : Widths) (e : Engine σ) : Prop where
  triggered : e.governor.isTriggered = true
  active : e.machine.active = e.governor.allowed
  concrete : e.governor.allowed.contains .concrete = true
  cells : e.log.cells = []
  staged : e.machine.staged = none
  registers : e.machine.registers.Seeded (e.widths V)

/-- Under the assignment every register describes its number in the allowed domains. -/
def Compatible (ρ : Assignment) (e : Engine σ) : Prop :=
  ∀ r, ∃ n, (e.machine.registers.get r).concrete = some n ∧
    ((e.machine.registers.get r).restrict e.governor.allowed).Describes ρ n

/-- The cells of the log, the oldest first, each hold a write, and these writes lead from the
bus at the start to the present one. -/
def Replays (start : Bus) (ρ : Assignment) (e : Engine σ) : Prop :=
  ∃ writes, e.machine.bus = start.setBytes writes.reverse ∧
    List.Forall₂ (Cell.Holds ρ) e.log.cells writes

/-- The engine after instructions in order; what they report is not looked at. -/
def executeAll [Solver σ] (e : Engine σ) (is : List Instruction) : Engine σ :=
  is.foldl (fun e i => (execute i e).2) e

/-- Does something hold of every instruction of a run, with the engine that executes it? -/
def Throughout [Solver σ] (P : Engine σ → Instruction → Prop) : Engine σ → List Instruction → Prop
  | _, [] => True
  | e, i :: is => P e i ∧ Throughout P (execute i e).2 is

theorem throughout_append [Solver σ] {P : Engine σ → Instruction → Prop} (is js : List Instruction) :
    Throughout P e (is ++ js) ↔ Throughout P e is ∧ Throughout P (e.executeAll is) js := by
  induction is generalizing e with
  | nil => exact (iff_of_eq (true_and _)).symm
  | cons i is ih => exact (and_congr_right fun _ => ih).trans and_assoc.symm

theorem executeAll_append [Solver σ] (e : Engine σ) (is js : List Instruction) :
    e.executeAll (is ++ js) = (e.executeAll is).executeAll js := List.foldl_append

theorem JustTriggered.settled (h : e.JustTriggered V) : e.Settled V where
  ready :=
    { concrete := h.active ▸ h.concrete
      triggered := fun _ => h.triggered
      cells := by
        rw [h.cells]
        exact List.forall_mem_nil _
      bits := h.registers.bits
      registers := h.registers.wellFormed
      known := h.registers.known }
  staged := h.staged
  allowed := h.concrete
  idle hidle := by
    rw [h.triggered] at hidle
    cases hidle
  triggered _ := h.active

/-- Nothing was logged since the trigger, and so nothing has to be mirrored. -/
theorem JustTriggered.consistent (h : e.JustTriggered V) (hρ : e.Compatible ρ) :
    e.Consistent e.machine.bus ρ where
  registers r := by
    obtain ⟨n, hn, hd⟩ := hρ r
    have hnumber : e.registerNumber r = n := by
      rw [Engine.registerNumber, hn, Option.getD_some]
    rw [hnumber, h.active]
    exact hd
  log _ := by
    refine ⟨[], rfl, ?_⟩
    rw [h.cells, h.staged]
    exact .nil

/-- Where the allowed domains are the active ones, they are compatible if they agree. -/
theorem Agrees.compatible (ha : e.Agrees ρ) (he : e.Ready V)
    (hactive : e.machine.active = e.governor.allowed) : e.Compatible ρ := by
  intro r
  refine ⟨e.registerNumber r, he.registerNumber r, ?_⟩
  rw [← hactive]
  exact ha r

/-- Between two instructions nothing is staged, and the whole log is on the bus. -/
theorem Consistent.replays (hc : e.Consistent start ρ) (h : e.Settled V)
    (hsym : e.machine.active.contains .symbolic = true) : e.Replays start ρ := by
  obtain ⟨committed, hbus, hcells⟩ := hc.log hsym
  rw [h.staged] at hcells
  exact ⟨committed, hbus, hcells⟩

/-! ### The trigger -/

/-- **The trigger** of an idle engine without a log makes it one that was just triggered. -/
theorem trigger_justTriggered (h : e.Settled V) (hidle : e.governor.isTriggered = false)
    (hcells : e.log.cells = []) (target : Nat) :
    ∃ e', trigger target e = (.ok (), e') ∧ e'.JustTriggered V ∧
      e'.machine.symbolic.nextVariable = e.machine.symbolic.nextVariable ∧
      ∀ ρ, (∀ r, (e.machine.registers.get r).Describes ρ (e.registerNumber r)) →
        e'.Compatible ρ := by
  obtain ⟨e', hact, hg, hlocated⟩ := trigger_located h.ready hidle target
  have htrig : e'.governor.isTriggered = true := by
    rw [hg]
    rfl
  have hallowed : e'.governor.allowed = e.governor.allowed := by
    rw [hg]
    rfl
  have hactive : e'.machine.active = e'.governor.allowed := hlocated.active.trans hallowed.symm
  have hready := hlocated.ready h.ready h.allowed fun _ => htrig
  refine ⟨e', hact, ⟨htrig, hactive, hallowed ▸ h.allowed, ?_, hlocated.staged.trans h.staged,
    hready.bits, hready.registers, hready.known⟩, hlocated.next, fun ρ hρ => ?_⟩
  · obtain ⟨v, -, halike⟩ := hlocated
    rw [halike.log]
    exact hcells
  · obtain ⟨v, halike, -, hbits, hn, hdesc⟩ := hlocated.elim V h.allowed
    have hunder : (e.under e.governor.allowed e'.governor).Agrees ρ := fun r =>
      Value.describes_restrict (hρ r) _
    have hwritten := hunder.written (h.ready.under h.allowed fun _ => htrig) hbits hn (hdesc ρ)
    exact (hwritten.alike halike).compatible hready hactive

/-! ### Instructions in order -/

section

variable [Solver σ]

/-- **Agreement is kept**, by induction on the instructions: each one extends the assignment
that the ones before it have left. -/
theorem executeAll_consistent (hsolver : Solver.RightOver σ V) {is : List Instruction}
    (hother : ∀ i ∈ is, i.kind = .other) (hdef : ∀ i ∈ is, i.Defined) (h : e.Settled V)
    (htrig : e.governor.isTriggered = true)
    (hfresh : V.Fresh e.machine.symbolic.nextVariable) (hc : e.Consistent start ρ) :
    (e.executeAll is).Settled V ∧ (e.executeAll is).governor.isTriggered = true ∧
      ∃ ρ', (∀ id, id < e.machine.symbolic.nextVariable → ρ' id = ρ id) ∧
        (e.executeAll is).Consistent start ρ' := by
  induction is generalizing e ρ with
  | nil => exact ⟨h, htrig, ρ, fun _ _ => rfl, hc⟩
  | cons i is ih =>
    obtain ⟨hi, his⟩ := List.forall_mem_cons.1 hother
    obtain ⟨hdi, hdis⟩ := List.forall_mem_cons.1 hdef
    have hout := execute_executed hdi hfresh h
    obtain ⟨ρ₁, hρ₁, hc₁⟩ := hout.sound htrig hi start ρ hsolver hc.elsewhere
    obtain ⟨hsettled, htrig', ρ₂, hρ₂, hc₂⟩ :=
      ih his hdis hout.settled (hout.phase.trans htrig) (hfresh.mono hout.le) hc₁
    refine ⟨hsettled, htrig', ρ₂, fun id hid => ?_, hc₂⟩
    rw [hρ₂ id (Nat.lt_of_lt_of_le hid hout.le), hρ₁ id (.inl hid)]

/-- **The domains agree along a triggered run.** From an engine that was just triggered, with
registers that are compatible under an assignment, any instructions in any order, succeeding or
failing, lead to an engine whose registers are compatible under an extension of it; and as long
as the symbolic domain is allowed, the log replays the bus. The widths `V` that variables may
have only matter to the solver: with all widths allowed it is to be right on all terms. -/
theorem executeAll_agrees (hsolver : Solver.RightOver σ V) (h : e.JustTriggered V)
    (hfresh : V.Fresh e.machine.symbolic.nextVariable) (hρ : e.Compatible ρ)
    (is : List Instruction) (hother : ∀ i ∈ is, i.kind = .other) (hdef : ∀ i ∈ is, i.Defined) :
    ∃ ρ', (∀ id, id < e.machine.symbolic.nextVariable → ρ' id = ρ id) ∧
      (e.executeAll is).Compatible ρ' ∧
      ((e.executeAll is).governor.allowed.contains .symbolic = true →
        (e.executeAll is).Replays e.machine.bus ρ') := by
  obtain ⟨hsettled, htrig, ρ', hρ', hc⟩ := executeAll_consistent hsolver hother hdef h.settled
    h.triggered hfresh (h.consistent hρ)
  refine ⟨ρ', hρ', hc.registers.compatible hsettled.ready (hsettled.triggered htrig),
    fun hsym => hc.replays hsettled ?_⟩
  rw [hsettled.triggered htrig]
  exact hsym

/-- A store and a load after the trigger of an engine with the built-in solver. -/
theorem executeAll_agrees_store :
    let e := (trigger 0 (Engine.start .empty {} (some (builtIn {})))).2
    let is : List Instruction :=
      [⟨0, 2, .other, "", [.store 32 (.register "ebx") (.register "eax")]⟩,
        ⟨2, 2, .other, "", [.setRegister "ecx" (.memory 32 (.register "edx"))]⟩]
    ∃ ρ' : Assignment, (∀ id, id < Register.all.length → ρ' id = 0) ∧
      (e.executeAll is).Compatible ρ' ∧
      ((e.executeAll is).governor.allowed.contains .symbolic = true →
        (e.executeAll is).Replays e.machine.bus ρ') := by
  intro e is
  let e₀ : Engine Backend := Engine.start .empty {} (some (builtIn {}))
  have hseeded : (RegisterFile.ofVariables 0).Seeded
      (Register.widths.below Register.all.length) :=
    RegisterFile.seeded_ofVariables fun r => ⟨by
      rw [Nat.zero_add]
      exact r.widths_index, by
      rw [Nat.zero_add]
      exact r.index.isLt⟩
  have hsettled : e₀.Settled Register.widths :=
    start_settled .empty {} (some (builtIn {})) {} hseeded
  have hzero : ∀ r, (e₀.machine.registers.get r).Describes (fun _ => 0) (e₀.registerNumber r) :=
    fun r => by
      have hd := RegisterFile.describes_ofVariables 0 r
      have hnumber : e₀.registerNumber r = 0 := hd.concrete _ (hsettled.ready.registerNumber r)
      rw [hnumber]
      exact hd
  obtain ⟨e₁, hact, hjust, hnext, hcompatible⟩ := trigger_justTriggered hsettled rfl rfl 0
  have he : e = e₁ := congrArg Prod.snd hact
  have hnext : e₁.machine.symbolic.nextVariable = Register.all.length := hnext
  have hagrees := executeAll_agrees (Backend.rightOver Register.functional_widths) hjust
    (hnext ▸ Register.fresh_widths) (hcompatible _ hzero) is
  rw [hnext] at hagrees
  rw [he]
  exact hagrees (by simp [is]) (by simp [is, Instruction.Defined, Statement.Defined, Expr.Defined])

/-! ### Reads -/

/-- **A byte out of a log that replays the bus** describes the byte on the bus. -/
theorem Replays.readByte (h : e.Replays start ρ) (he : e.Ready V)
    (hsolver : Solver.RightOver σ V) {address : Term} (ha : address.Typed (e.widths V))
    (hw : address.width = addressBits) (prune : Bool) :
    ∃ v s', e.log.readByte address prune e.machine.symbolic = (.ok v, s') ∧
      ∃ ρ', ρ.AgreesOutside e.machine.symbolic.nextVariable s'.nextVariable ρ' ∧
        v.Describes ρ' (e.machine.bus.getByte (address.eval ρ)).toNat := by
  obtain ⟨writes, hbus, hcells⟩ := h
  obtain ⟨l, hl, hd, hbyte⟩ := MemoryLog.overwritten_eq_newest hcells start.getByte
  obtain ⟨v, s', hread, -, hv⟩ :=
    MemoryLog.readByte_spec e.log he.cells ha hw prune e.machine.symbolic
  refine ⟨v, s', hread, ?_⟩
  rw [hbus, Bus.getByte_setBytes, ← hbyte]
  exact hv.sound (hsolver.below _) (fun id w hid => hid.2) ρ _ l
    (fun a => UInt8.toNat_lt_count _) hl hd

end

end Engine
end Lockstep
