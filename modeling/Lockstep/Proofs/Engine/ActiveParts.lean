/-
# Values have parts of active domains only

Whatever an expression is evaluated to has parts for active domains and no
others: constants and operations are assembled of active parts, registers and
words in memory are restricted to them, and only an active range is refined.

Key definitions: `Value.PartsIn`.
Key theorems: `Value.partsIn_of_assemble`, `Engine.partsIn_readMemory`, `Engine.partsIn_evaluate`.
-/
import Lockstep.Proofs.Engine.Registers
import Lockstep.Proofs.Value.Parts

namespace Lockstep

theorem DomainSet.contains_of_only {α : Type} {s : DomainSet} {d : Domain} {part : Option α}
    (h : (s.only d part).isSome = true) : s.contains d = true := by
  rw [isSome_only] at h
  exact (Bool.and_eq_true_iff.1 h).1

/-! ### Operations on values -/

namespace Value

variable {active : DomainSet} {bits : Nat} {a b c v : Value}

/-- Does the value have parts for domains of the set only? -/
def PartsIn (s : DomainSet) (v : Value) : Prop := ∀ d, v.isValid d = true → s.contains d = true

theorem partsIn_of_assemble {known : Option Nat} {range : Option Interval} {term : Option Term}
    (h : assemble active bits known range term = .ok v) : v.PartsIn active := by
  obtain ⟨hconcrete, hinterval, hsymbolic⟩ := isValid_of_assemble h
  intro d hd
  cases d with
  | concrete => exact (Bool.and_eq_true_iff.1 (hconcrete ▸ hd)).1
  | interval => exact (Bool.and_eq_true_iff.1 (hinterval ▸ hd)).1
  | symbolic => exact (Bool.and_eq_true_iff.1 (hsymbolic ▸ hd)).1

theorem partsIn_restrict (v : Value) (s : DomainSet) : (v.restrict s).PartsIn s := by
  intro d hd
  cases d <;> exact DomainSet.contains_of_only hd

theorem partsIn_number {n : Nat} (h : number active bits n = .ok v) : v.PartsIn active := by
  obtain ⟨-, -, h⟩ := bind_eq_ok h
  exact partsIn_of_assemble h

theorem partsIn_binary {op : BinaryOp} (h : binary active op a b = .ok v) : v.PartsIn active := by
  obtain ⟨_, -, h⟩ := bind_eq_ok h
  exact partsIn_of_assemble h

theorem partsIn_slice {lo hi : Nat} (h : a.slice active lo hi = .ok v) : v.PartsIn active := by
  unfold slice at h
  split at h
  · cases h
  · exact partsIn_of_assemble h

theorem partsIn_concat (h : concat active a b = .ok v) : v.PartsIn active := by
  obtain ⟨-, -, h⟩ := bind_eq_ok h
  exact partsIn_of_assemble h

theorem partsIn_ite (h : ite active c a b = .ok v) : v.PartsIn active := by
  unfold ite at h
  split at h
  · cases h
  · obtain ⟨_, -, h⟩ := bind_eq_ok h
    exact partsIn_of_assemble h

theorem partsIn_invert (h : invert active a = .ok v) : v.PartsIn active := partsIn_of_assemble h

theorem partsIn_isZero (h : isZero active a = .ok v) : v.PartsIn active := partsIn_of_assemble h

theorem partsIn_undefined {σ : Type} {s s' : Symbolic σ}
    (h : undefined active bits s = (.ok v, s')) : v.PartsIn active := by
  obtain ⟨-, -, h⟩ := apply_check_eq_ok h
  -- the range is there if ranges are active, and the number is not
  have hranged {u : Value} (hconcrete : u.concrete = none)
      (hinterval : u.interval = active.only .interval (some (.top bits)))
      (hsymbolic : u.symbolic.isSome = true → active.contains .symbolic = true) :
      u.PartsIn active := by
    intro d hd
    cases d with
    | concrete =>
      rw [isValid, hconcrete] at hd
      cases hd
    | interval =>
      rw [isValid, hinterval] at hd
      exact DomainSet.contains_of_only hd
    | symbolic => exact hsymbolic hd
  by_cases hs : active.contains .symbolic = true
  · rw [if_pos hs] at h
    obtain ⟨t, s₁, -, h⟩ := apply_bind_eq_ok h
    rw [apply_liftExcept] at h
    rw [eq_of_setSymbolic (Prod.mk.inj h).1]
    exact hranged rfl rfl fun _ => hs
  · rw [if_neg hs] at h
    obtain rfl := Except.ok.inj (Prod.mk.inj h).1
    exact hranged rfl rfl fun hnone => by cases hnone

theorem partsIn_refineZero {σ : Type} [Solver σ] (hv : v.PartsIn active) (s : Symbolic σ) :
    (v.refineZero active s).1.PartsIn active := by
  by_cases hboth : (active.contains .symbolic && active.contains .interval) = true
  · obtain ⟨-, heq | ⟨heq, -⟩⟩ := refineZero_spec v active s
    · rw [heq]
      exact hv
    · rw [heq]
      intro d hd
      cases d with
      | concrete => exact hv .concrete hd
      | interval => exact (Bool.and_eq_true_iff.1 hboth).2
      | symbolic => exact hv .symbolic hd
  · unfold refineZero
    rw [if_neg hboth]
    exact hv

end Value

/-! ### Loads -/

namespace Engine

variable {σ : Type} {e e' : Engine σ} {v : Value}

theorem partsIn_symbolically {act : ExceptT Fault (SymbolicM σ) Value} {m : DomainSet}
    (hact : ∀ s s' u, act s = (.ok u, s') → u.PartsIn m)
    (h : symbolically act e = (.ok v, e')) : v.PartsIn m :=
  hact e.machine.symbolic (act e.machine.symbolic).2 v (Prod.ext (Prod.mk.inj h).1 rfl)

theorem partsIn_numberedWord {active : DomainSet} {bits : Nat} {n : Option Nat}
    (h : numberedWord active bits n e = (.ok v, e')) : v.PartsIn active := by
  obtain ⟨u, e₁, hu, h⟩ := apply_bind_eq_ok h
  obtain rfl := Except.ok.inj (Prod.mk.inj h).1
  have hparts := partsIn_symbolically (fun _ _ _ => Value.partsIn_undefined) hu
  intro d hd
  cases d with
  | concrete => exact DomainSet.contains_of_only hd
  | interval => exact hparts .interval hd
  | symbolic => exact hparts .symbolic hd

theorem partsIn_machineReadMemory {address : Value} {bits : Nat}
    (h : onMachine (Machine.readMemory address bits) e = (.ok v, e')) :
    v.PartsIn e.machine.active := by
  rw [onMachine_readMemory] at h
  obtain ⟨-, -, h⟩ := apply_check_eq_ok h
  obtain ⟨-, -, h⟩ := apply_check_eq_ok h
  rw [apply_get_bind] at h
  obtain ⟨-, e₁, -, h⟩ := apply_bind_eq_ok h
  exact partsIn_numberedWord h

variable [Solver σ]

/-- **A load** gives parts for active domains only, be it from the machine or from the log. -/
theorem partsIn_readMemory {address : Value} {bits : Nat}
    (h : readMemory address bits e = (.ok v, e')) : v.PartsIn e.machine.active := by
  unfold readMemory at h
  rw [apply_get_bind] at h
  by_cases htrig : (!e.governor.isTriggered) = true
  · rw [if_pos htrig] at h
    exact partsIn_machineReadMemory h
  rw [if_neg htrig] at h
  obtain ⟨-, -, h⟩ := apply_check_eq_ok h
  obtain ⟨-, -, h⟩ := apply_check_eq_ok h
  by_cases hsym : (!e.machine.active.contains .symbolic) = true
  · rw [if_pos hsym] at h
    exact partsIn_machineReadMemory h
  rw [if_neg hsym] at h
  cases hens : address.ensureTerm e.machine.active with
  | error fault =>
    rw [hens] at h
    obtain ⟨_, e₁, hnote, h⟩ := apply_bind_eq_ok h
    obtain ⟨s, hs⟩ := (observes_note _ _).frame e
    rw [hnote] at hs
    obtain rfl : e₁ = e.withSymbolic s := hs
    exact partsIn_machineReadMemory (e := e.withSymbolic s) h
  | ok base =>
    rw [hens] at h
    obtain ⟨u, e₁, hlog, h⟩ := apply_bind_eq_ok h
    obtain ⟨s, hs⟩ := (readLogBytes_observes base (bits / 8)).frame e
    rw [hlog] at hs
    obtain rfl : e₁ = e.withSymbolic s := hs
    rw [apply_get_bind] at h
    obtain rfl := Except.ok.inj (Prod.mk.inj h).1
    exact Value.partsIn_restrict _ _

/-! ### Expressions -/

theorem partsIn_xor {a b : Value} (h : xor a b e = (.ok v, e')) : v.PartsIn e.machine.active := by
  unfold xor at h
  rw [apply_get_bind] at h
  obtain ⟨u, hu, h⟩ := apply_check_eq_ok h
  refine partsIn_symbolically (fun s s' w hw => ?_) h
  obtain rfl := Except.ok.inj (Prod.mk.inj hw).1
  exact Value.partsIn_refineZero (Value.partsIn_binary hu) s

theorem partsIn_combine {op : BinaryOp} {a b : Value} (h : combine op a b e = (.ok v, e')) :
    v.PartsIn e.machine.active := by
  have hbinary {op : BinaryOp}
      (h : (do Value.binary (← get).machine.active op a b : EngineM σ Value) e = (.ok v, e')) :
      v.PartsIn e.machine.active := by
    rw [apply_get_bind, apply_liftExcept] at h
    exact Value.partsIn_binary (Prod.mk.inj h).1
  cases op with
  | xor => exact partsIn_xor h
  | _ => exact hbinary h

/-- **An evaluation** gives parts for active domains only. The last operation decides: each form
ends with one in the active domains, which its operands have left as they were. -/
theorem partsIn_evaluate {x : Expr} (h : evaluate x e = (.ok v, e')) :
    v.PartsIn e.machine.active := by
  have hactive {y : Expr} {u : Value} {e₁ e₂ : Engine σ} (hy : evaluate y e₁ = (.ok u, e₂)) :
      e₂.machine.active = e₁.machine.active := by
    have hkept := active_evaluate y e₁
    rwa [hy] at hkept
  have hlast {f : DomainSet → Except Fault Value} {e₁ : Engine σ}
      (hf : ∀ m u, f m = .ok u → u.PartsIn m)
      (h : (do f (← get).machine.active : EngineM σ Value) e₁ = (.ok v, e')) :
      v.PartsIn e₁.machine.active := by
    rw [apply_get_bind, apply_liftExcept] at h
    exact hf _ _ (Prod.mk.inj h).1
  cases x with
  | const value size => exact hlast (fun _ _ => Value.partsIn_number) h
  | register name =>
    unfold evaluate at h
    rw [apply_get_bind, apply_liftExcept] at h
    have hread : e.machine.readNamed name = .ok v := (Prod.mk.inj h).1
    unfold Machine.readNamed at hread
    cases hr : Register.named name with
    | error fault =>
      rw [hr] at hread
      cases hread
    | ok r =>
      rw [hr] at hread
      obtain rfl := Except.ok.inj hread
      exact Value.partsIn_restrict _ _
  | memory size a =>
    obtain ⟨u, e₁, ha, h⟩ := apply_bind_eq_ok h
    rw [← hactive ha]
    exact partsIn_readMemory h
  | binary op a b =>
    obtain ⟨u, e₁, ha, h⟩ := apply_bind_eq_ok h
    obtain ⟨w, e₂, hb, h⟩ := apply_bind_eq_ok h
    rw [← hactive ha, ← hactive hb]
    exact partsIn_combine h
  | invert a =>
    obtain ⟨u, e₁, ha, h⟩ := apply_bind_eq_ok h
    rw [← hactive ha]
    exact hlast (fun _ _ => Value.partsIn_invert) h
  | slice a lo hi =>
    obtain ⟨u, e₁, ha, h⟩ := apply_bind_eq_ok h
    rw [← hactive ha]
    exact hlast (fun _ _ => Value.partsIn_slice) h
  | concat lo hi =>
    obtain ⟨u, e₁, ha, h⟩ := apply_bind_eq_ok h
    obtain ⟨w, e₂, hb, h⟩ := apply_bind_eq_ok h
    rw [← hactive ha, ← hactive hb]
    exact hlast (fun _ _ => Value.partsIn_concat) h
  | isZero a =>
    obtain ⟨u, e₁, ha, h⟩ := apply_bind_eq_ok h
    rw [← hactive ha]
    exact hlast (fun _ _ => Value.partsIn_isZero) h
  | ite c t f =>
    obtain ⟨b, e₁, hc, h⟩ := apply_bind_eq_ok h
    obtain ⟨u, e₂, ht, h⟩ := apply_bind_eq_ok h
    obtain ⟨w, e₃, hf, h⟩ := apply_bind_eq_ok h
    rw [← hactive hc, ← hactive ht, ← hactive hf]
    exact hlast (fun _ _ => Value.partsIn_ite) h
  | undefined size =>
    unfold evaluate at h
    rw [apply_get_bind] at h
    exact partsIn_symbolically (fun _ _ _ => Value.partsIn_undefined) h

end Engine
end Lockstep
