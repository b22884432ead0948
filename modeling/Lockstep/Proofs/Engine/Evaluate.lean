/-
# Evaluating expressions

The value of an expression has the number of the expression in the concrete
machine, and it describes this number as soon as the registers and the log
do. The assignment under which it does may have to be extended: reading the
log makes new variables. A sequence of evaluations hands the extended
assignment on; the values that are already there keep what they describe.

Key definitions: `Engine.Ready`, `Engine.Agrees`, `Engine.Consistent`, `Engine.Computed`,
`Engine.Computes`.
Key theorems: `Engine.Computed.extend`, `Engine.Computes.bind`, `Engine.evaluate_computes`.
-/
import Lockstep.Proofs.Concrete
import Lockstep.Proofs.Engine.Store
import Lockstep.Proofs.Value.Bridge

namespace Lockstep

/-- Every variable from a number on may be a byte. -/
def Widths.Fresh (V : Widths) (n : Nat) : Prop := ∀ id, n ≤ id → V id 8

theorem Widths.Fresh.mono {V : Widths} {m n : Nat} (h : V.Fresh m) (hmn : m ≤ n) : V.Fresh n :=
  fun id hid => h id (Nat.le_trans hmn hid)

theorem Widths.below_of_withBytes {V : Widths} {m n : Nat} (h : V.Fresh m) (hmn : m ≤ n) :
    ∀ id w, (V.below m).withBytes m n id w → V.below n id w := by
  rintro id w (h' | ⟨h1, h2, rfl⟩)
  · exact V.below_mono hmn id w h'
  · exact ⟨h id h1, h2⟩

theorem Solver.RightOver.below {σ : Type} [Solver σ] {V : Widths} (h : Solver.RightOver σ V)
    (n : Nat) : Solver.RightOver σ (V.below n) :=
  fun s t v ht hv => h s t v (ht.mono fun _ _ _ hid => hid.1) hv

theorem Cell.Holds.congr {ρ ρ' : Assignment} {c : Cell} {w : Nat × UInt8} {W : Widths}
    (h : c.Holds ρ w) (hc : c.WellFormed W) (hρ : ∀ id w, W id w → ρ id = ρ' id) :
    c.Holds ρ' w := by
  refine ⟨?_, h.value.congr hc.value hρ⟩
  rw [← h.address]
  exact Term.eval_congr fun id w hm => (hρ id w (hc.address.vars id w hm)).symm

theorem forall₂_holds_congr {ρ ρ' : Assignment} {W : Widths} {cells : List Cell}
    {writes : List (Nat × UInt8)} (h : List.Forall₂ (Cell.Holds ρ) cells writes)
    (hcells : ∀ c ∈ cells, c.WellFormed W) (hρ : ∀ id w, W id w → ρ id = ρ' id) :
    List.Forall₂ (Cell.Holds ρ') cells writes := by
  induction h with
  | nil => exact .nil
  | cons hc _ ih =>
    obtain ⟨hwf, hcells⟩ := List.forall_mem_cons.1 hcells
    exact .cons (hc.congr hwf hρ) (ih hcells)

namespace Engine

variable {σ : Type} {V : Widths} {e : Engine σ}

/-- The widths of the variables in use. -/
def widths (V : Widths) (e : Engine σ) : Widths := V.below e.machine.symbolic.nextVariable

/-- An engine that can evaluate: the concrete domain is active, the symbolic one only after
the trigger, cells and registers are well formed over the variables in use, and every
register has a number. -/
structure Ready (V : Widths) (e : Engine σ) : Prop where
  concrete : e.machine.active.contains .concrete = true
  triggered : e.machine.active.contains .symbolic = true → e.governor.isTriggered = true
  cells : ∀ c ∈ e.log.cells, c.WellFormed (e.widths V)
  bits : ∀ r, (e.machine.registers.get r).bits = r.bits
  registers : ∀ r, (e.machine.registers.get r).WellFormed (e.widths V)
  known : ∀ r, ∃ n, (e.machine.registers.get r).concrete = some n

def registerNumber (e : Engine σ) (r : Register) : Nat :=
  ((e.machine.registers.get r).concrete).getD 0

theorem Ready.registerNumber (h : e.Ready V) (r : Register) :
    (e.machine.registers.get r).concrete = some (e.registerNumber r) := by
  obtain ⟨n, hn⟩ := h.known r
  rw [Engine.registerNumber, hn, Option.getD_some]

/-- The number of an expression in the engine. -/
def number (e : Engine σ) (x : Expr) : Except Fault (Nat × Nat) :=
  x.number e.registerNumber e.machine.load

/-- Under the assignment the active parts of every register describe its number. -/
def Agrees (ρ : Assignment) (e : Engine σ) : Prop :=
  ∀ r, ((e.machine.registers.get r).restrict e.machine.active).Describes ρ (e.registerNumber r)

/-- **The domains agree** on the registers, and the log, if the symbolic domain is active,
mirrors the bus. -/
structure Consistent (start : Bus) (ρ : Assignment) (e : Engine σ) : Prop where
  registers : e.Agrees ρ
  log : e.machine.active.contains .symbolic = true → e.Mirrors start ρ

theorem Consistent.withSymbolic {start : Bus} {ρ : Assignment} (h : e.Consistent start ρ)
    (s : Symbolic σ) : (e.withSymbolic s).Consistent start ρ :=
  ⟨h.registers, h.log⟩

theorem widths_mono {s : Symbolic σ} (h : e.machine.symbolic.nextVariable ≤ s.nextVariable) :
    ∀ id w, e.widths V id w → (e.withSymbolic s).widths V id w :=
  V.below_mono h

theorem Ready.withSymbolic (he : e.Ready V) {s : Symbolic σ}
    (h : e.machine.symbolic.nextVariable ≤ s.nextVariable) : (e.withSymbolic s).Ready V where
  concrete := he.concrete
  triggered := he.triggered
  cells c hc := (he.cells c hc).mono (widths_mono h)
  bits := he.bits
  registers r := (he.registers r).mono (widths_mono h)
  known := he.known

/-- Assignments that agree on the variables in use are as good as each other. -/
theorem Consistent.congr {start : Bus} {ρ ρ' : Assignment} (h : e.Consistent start ρ)
    (he : e.Ready V) (hρ : ∀ id, id < e.machine.symbolic.nextVariable → ρ id = ρ' id) :
    e.Consistent start ρ' where
  registers r := (h.registers r).congr (Value.wellFormed_restrict (he.registers r) _)
    fun id _ hid => hρ id hid.2
  log hsym := by
    obtain ⟨committed, hbus, hcells⟩ := h.log hsym
    exact ⟨committed, hbus, forall₂_holds_congr hcells he.cells fun id _ hid => hρ id hid.2⟩

/-! ### Computations of values -/

/-- What is known of a value that was computed: it is well formed over the variables that are
then in use, it has the number, and it describes the number under an extension of every
assignment under which the domains agree and the values of `env` describe theirs. -/
structure Computed [Solver σ] (V : Widths) (e : Engine σ) (env : List (Value × Nat))
    (s : Symbolic σ) (v : Value) (n : Nat) : Prop where
  wellFormed : v.WellFormed ((e.withSymbolic s).widths V)
  concrete : v.concrete = some n
  sound : ∀ (start : Bus) (ρ : Assignment), Solver.RightOver σ V → e.Consistent start ρ →
    (∀ p ∈ env, p.1.Describes ρ p.2) →
    ∃ ρ', ρ.AgreesOutside e.machine.symbolic.nextVariable s.nextVariable ρ' ∧ v.Describes ρ' n

/-- A computation of a value changes the symbolic state only. Its value has the given number;
it fails with the given fault where `wide` holds, and it may also fail elsewhere. -/
def Computes [Solver σ] (V : Widths) (e : Engine σ) (env : List (Value × Nat))
    (act : EngineM σ Value) (number : Except Fault (Nat × Nat)) (wide : Prop) : Prop :=
  ∃ r s, act e = (r, e.withSymbolic s) ∧
    e.machine.symbolic.nextVariable ≤ s.nextVariable ∧
    match r with
    | .ok v => ∃ n, number = .ok (v.bits, n) ∧ Computed V e env s v n
    | .error f => wide → number = .error f

/-- The values that are there stay well formed when variables are added. -/
theorem wellFormed_env {env : List (Value × Nat)} {s : Symbolic σ} {v : Value} {n : Nat}
    (henv : ∀ p ∈ env, p.1.WellFormed (e.widths V))
    (hle : e.machine.symbolic.nextVariable ≤ s.nextVariable)
    (hv : v.WellFormed ((e.withSymbolic s).widths V)) :
    ∀ p ∈ (v, n) :: env, p.1.WellFormed ((e.withSymbolic s).widths V) :=
  List.forall_mem_cons.2 ⟨hv, fun p hp => (henv p hp).mono (widths_mono hle)⟩

variable [Solver σ] {env : List (Value × Nat)}

/-- A computed value joins those that are there: under an extended assignment they all
describe their numbers, and the domains agree as before. -/
theorem Computed.extend {s : Symbolic σ} {v : Value} {n : Nat} (hv : Computed V e env s v n)
    (he : e.Ready V) (henv : ∀ p ∈ env, p.1.WellFormed (e.widths V)) {start : Bus}
    {ρ : Assignment} (hsolver : Solver.RightOver σ V) (hcons : e.Consistent start ρ)
    (hd : ∀ p ∈ env, p.1.Describes ρ p.2) :
    ∃ ρ', ρ.AgreesOutside e.machine.symbolic.nextVariable s.nextVariable ρ' ∧
      (e.withSymbolic s).Consistent start ρ' ∧ ∀ p ∈ (v, n) :: env, p.1.Describes ρ' p.2 := by
  obtain ⟨ρ', hρ', hvd⟩ := hv.sound start ρ hsolver hcons hd
  refine ⟨ρ', hρ', (hcons.congr he fun id hid => hρ'.below hid).withSymbolic s, ?_⟩
  exact List.forall_mem_cons.2 ⟨hvd, fun p hp =>
    (hd p hp).congr (henv p hp) fun id _ hid => hρ'.below hid.2⟩

/-- **Computations in sequence.** The second one finds the value of the first among those that
are there. -/
theorem Computes.bind {act : EngineM σ Value} {f : Value → EngineM σ Value}
    {number : Except Fault (Nat × Nat)} {next : Nat × Nat → Except Fault (Nat × Nat)}
    {wide wide' : Prop} (he : e.Ready V) (henv : ∀ p ∈ env, p.1.WellFormed (e.widths V))
    (h : Computes V e env act number wide)
    (hf : ∀ v n s, number = .ok (v.bits, n) → Computed V e env s v n →
      e.machine.symbolic.nextVariable ≤ s.nextVariable →
      Computes V (e.withSymbolic s) ((v, n) :: env) (f v) (next (v.bits, n)) wide') :
    Computes V e env (act >>= f) (number >>= next) (wide ∧ wide') := by
  obtain ⟨r, s, hact, hle, hr⟩ := h
  cases r with
  | error fault => exact ⟨_, s, apply_bind_error hact f, hle, fun hw => by rw [hr hw.1]; rfl⟩
  | ok v =>
    obtain ⟨n, hn, hv⟩ := hr
    obtain ⟨r', s', hact', hle', hr'⟩ := hf v n s hn hv hle
    refine ⟨r', s', (apply_bind_ok hact f).trans hact', hle.trans hle', ?_⟩
    have hnumber : (number >>= next) = next (v.bits, n) := by
      rw [hn]
      rfl
    rw [hnumber]
    cases r' with
    | error fault => exact fun hw => hr' hw.2
    | ok v' =>
      obtain ⟨n', hn', hv'⟩ := hr'
      refine ⟨n', hn', hv'.wellFormed, hv'.concrete, fun start ρ hsolver hcons hd => ?_⟩
      obtain ⟨ρ₁, hρ₁, hcons₁, hd₁⟩ := hv.extend he henv hsolver hcons hd
      obtain ⟨ρ₂, hρ₂, hvd'⟩ := hv'.sound start ρ₁ hsolver hcons₁ hd₁
      exact ⟨ρ₂, hρ₁.trans hle hle' hρ₂, hvd'⟩

theorem Computes.imp {act : EngineM σ Value} {number : Except Fault (Nat × Nat)}
    {p q : Prop} (h : Computes V e env act number p) (hw : q → p) :
    Computes V e env act number q := by
  obtain ⟨r, s, hact, hle, hr⟩ := h
  refine ⟨r, s, hact, hle, ?_⟩
  cases r with
  | ok v => exact hr
  | error f => exact fun h => hr (hw h)

/-- A value that is computed without the symbolic state, from values that are there. -/
theorem computes_ok {f : DomainSet → Except Fault Value} {bits n : Nat} {known : Option Nat}
    (he : e.Ready V) (hknown : known = some n)
    (h : ∃ v, f e.machine.active = .ok v ∧
      v.Shape (e.widths V) e.machine.active bits known ∧
      ∀ ρ, (∀ p ∈ env, p.1.Describes ρ p.2) → v.Describes ρ n) :
    Computes V e env (do liftM (f (← get).machine.active)) (.ok (bits, n)) True := by
  obtain ⟨v, hv, hshape, hdesc⟩ := h
  refine ⟨.ok v, e.machine.symbolic, ?_, Nat.le_refl _, n, by rw [hshape.bits], hshape.wellFormed,
    ?_, fun start ρ _ _ hd => ⟨ρ, fun _ _ => rfl, hdesc ρ hd⟩⟩
  · rw [apply_bind_ok (apply_get e), apply_liftExcept, hv]
    rfl
  · rw [hshape.concrete, hknown]
    exact Value.only_eq_some.2 ⟨he.concrete, rfl⟩

theorem computes_error {f : DomainSet → Except Fault Value} {fault : Fault}
    (h : f e.machine.active = .error fault) :
    Computes V e env (do liftM (f (← get).machine.active)) (.error fault) True := by
  refine ⟨.error fault, e.machine.symbolic, ?_, Nat.le_refl _, fun _ => rfl⟩
  rw [apply_bind_ok (apply_get e), apply_liftExcept, h]
  rfl

/-! ### Operations -/

theorem checkWidth_cases (bits : Nat) :
    (checkWidth bits = .ok () ∧ 0 < bits ∧ bits ≤ maxBits) ∨
      checkWidth bits = .error (.width bits) := by
  unfold checkWidth
  by_cases h : bits = 0 ∨ maxBits < bits
  · rw [if_pos h]
    exact .inr rfl
  · rw [if_neg h]
    exact .inl ⟨rfl, by omega, by omega⟩

theorem number_computes (he : e.Ready V) (value size : Nat) :
    Computes V e env (do liftM (Value.number (← get).machine.active size value))
      (do checkWidth size; pure (size, Word.truncate size value)) True := by
  obtain ⟨hw, hpos, hle⟩ | hw := checkWidth_cases size
  · rw [hw]
    obtain ⟨v, hv, hshape, hdesc⟩ := Value.number_ok (V := e.widths V)
      e.machine.active hpos hle value
    exact computes_ok (f := fun active => Value.number active size value) he rfl
      ⟨v, hv, hshape, fun ρ _ => hdesc ρ⟩
  · rw [hw]
    refine computes_error (f := fun active => Value.number active size value) ?_
    rw [Value.number, hw]
    rfl

section

variable {u v c : Value} {m n k s : Nat}

theorem invert_computes (he : e.Ready V) (hu : u.WellFormed (e.widths V))
    (hm : u.concrete = some m) :
    Computes V e ((u, m) :: env) (do liftM (Value.invert (← get).machine.active u))
      (.ok (u.bits, Word.invert u.bits m)) True := by
  obtain ⟨r, hr, hshape, hdesc⟩ := Value.invert_ok e.machine.active hu
  refine computes_ok (f := fun active => Value.invert active u) he ?_ ⟨r, hr, hshape, fun ρ hd =>
    hdesc ρ m (hd _ List.mem_cons_self)⟩
  rw [Value.known?_of_concrete hm]
  rfl

theorem slice_computes (he : e.Ready V) (hu : u.WellFormed (e.widths V))
    (hm : u.concrete = some m) (lo hi : Nat) :
    Computes V e ((u, m) :: env) (do liftM (u.slice (← get).machine.active lo hi))
      (if hi ≤ lo ∨ u.bits < hi then throw (.sliceRange lo hi u.bits)
        else pure (hi - lo, Word.slice m lo hi)) True := by
  by_cases h : hi ≤ lo ∨ u.bits < hi
  · rw [if_pos h]
    refine computes_error (f := fun active => u.slice active lo hi) ?_
    unfold Value.slice
    rw [if_pos h]
    rfl
  · rw [if_neg h]
    obtain ⟨r, hr, hshape, hdesc⟩ := Value.slice_ok e.machine.active hu
      (show lo < hi by omega) (show hi ≤ u.bits by omega)
    refine computes_ok (f := fun active => u.slice active lo hi) he ?_ ⟨r, hr, hshape,
      fun ρ hd => hdesc ρ m (hd _ List.mem_cons_self)⟩
    rw [Value.known?_of_concrete hm]
    rfl

theorem isZero_computes (he : e.Ready V) (hu : u.WellFormed (e.widths V))
    (hm : u.concrete = some m) :
    Computes V e ((u, m) :: env) (do liftM (Value.isZero (← get).machine.active u))
      (.ok (1, Word.isZero u.bits m)) True := by
  obtain ⟨r, hr, hshape, hdesc⟩ := Value.isZero_ok e.machine.active hu
  refine computes_ok (f := fun active => Value.isZero active u) he ?_ ⟨r, hr, hshape, fun ρ hd =>
    hdesc ρ m (hd _ List.mem_cons_self)⟩
  rw [Value.known?_of_concrete hm]
  rfl

theorem concat_computes (he : e.Ready V) (hu : u.WellFormed (e.widths V))
    (hm : u.concrete = some m) (hv : v.WellFormed (e.widths V)) (hn : v.concrete = some n) :
    Computes V e ((v, n) :: (u, m) :: env) (do liftM (Value.concat (← get).machine.active u v))
      (do checkWidth (u.bits + v.bits); pure (u.bits + v.bits, Word.concat m u.bits n v.bits))
      True := by
  obtain ⟨hw, -, hle⟩ | hw := checkWidth_cases (u.bits + v.bits)
  · rw [hw]
    obtain ⟨r, hr, hshape, hdesc⟩ := Value.concat_ok e.machine.active hu hv hle
    refine computes_ok (f := fun active => Value.concat active u v) he ?_ ⟨r, hr, hshape,
      fun ρ hd => hdesc ρ m n (hd _ (.tail _ List.mem_cons_self)) (hd _ List.mem_cons_self)⟩
    rw [Value.known?_of_concrete hm, Value.known?_of_concrete hn]
    rfl
  · rw [hw]
    refine computes_error (f := fun active => Value.concat active u v) ?_
    rw [Value.concat, hw]
    rfl

theorem binary_computes (op : BinaryOp) (he : e.Ready V) (hu : u.WellFormed (e.widths V))
    (hm : u.concrete = some m) (hv : v.WellFormed (e.widths V)) (hn : v.concrete = some n) :
    Computes V e ((v, n) :: (u, m) :: env)
      (do liftM (Value.binary (← get).machine.active op u v))
      (if u.bits = v.bits then pure (u.bits, Word.binary op u.bits m n)
        else throw (.operandWidths op.label u.bits v.bits)) True := by
  by_cases h : u.bits = v.bits
  · rw [if_pos h]
    obtain ⟨r, hr, hshape, hdesc⟩ := Value.binary_ok e.machine.active op hu hv h
    refine computes_ok (f := fun active => Value.binary active op u v) he ?_ ⟨r, hr, hshape,
      fun ρ hd => hdesc ρ m n (hd _ (.tail _ List.mem_cons_self)) (hd _ List.mem_cons_self)⟩
    rw [Value.known?_of_concrete hm, Value.known?_of_concrete hn]
    rfl
  · rw [if_neg h]
    exact computes_error (f := fun active => Value.binary active op u v) (Value.binary_error _ op h)

theorem ite_computes (he : e.Ready V) (hc : c.WellFormed (e.widths V))
    (hk : c.concrete = some k) (hu : u.WellFormed (e.widths V)) (hm : u.concrete = some m)
    (hv : v.WellFormed (e.widths V)) (hn : v.concrete = some n) :
    Computes V e ((v, n) :: (u, m) :: (c, k) :: env)
      (do liftM (Value.ite (← get).machine.active c u v))
      (if c.bits ≠ 1 then throw (.conditionWidth c.bits)
        else if u.bits = v.bits then pure (u.bits, Word.ite u.bits k m n)
        else throw (.operandWidths "ite" u.bits v.bits)) True := by
  by_cases hbit : c.bits = 1
  · rw [if_neg (not_not_intro hbit)]
    by_cases h : u.bits = v.bits
    · rw [if_pos h]
      obtain ⟨r, hr, hshape, hdesc⟩ :=
        Value.ite_ok e.machine.active hc hu hv hbit h
      refine computes_ok (f := fun active => Value.ite active c u v) he ?_ ⟨r, hr, hshape,
        fun ρ hd => hdesc ρ k m n (hd _ (.tail _ (.tail _ List.mem_cons_self)))
          (hd _ (.tail _ List.mem_cons_self)) (hd _ List.mem_cons_self)⟩
      rw [Value.known?_of_concrete hk, Value.known?_of_concrete hm, Value.known?_of_concrete hn]
      rfl
    · rw [if_neg h]
      refine computes_error (f := fun active => Value.ite active c u v) ?_
      unfold Value.ite Value.sameWidth
      rw [if_neg (not_not_intro hbit), if_neg h]
      rfl
  · rw [if_pos hbit]
    refine computes_error (f := fun active => Value.ite active c u v) ?_
    unfold Value.ite
    rw [if_pos hbit]
    rfl

/-- An exclusive or has the number of any two-operand operation: its range is pinned to zero
only where its term is zero under every assignment. -/
theorem xor_computes (he : e.Ready V) (hu : u.WellFormed (e.widths V))
    (hm : u.concrete = some m) (hv : v.WellFormed (e.widths V)) (hn : v.concrete = some n) :
    Computes V e ((v, n) :: (u, m) :: env) (xor u v)
      (if u.bits = v.bits then pure (u.bits, Word.binary .xor u.bits m n)
        else throw (.operandWidths "xor_" u.bits v.bits)) True := by
  by_cases h : u.bits = v.bits
  · rw [if_pos h]
    obtain ⟨r, hr, hshape, hdesc⟩ := Value.binary_ok e.machine.active .xor hu hv h
    obtain ⟨hnext, hcases⟩ := Value.refineZero_spec r e.machine.active e.machine.symbolic
    have hrn : r.concrete = some (Word.binary .xor u.bits m n) := by
      rw [hshape.concrete, Value.known?_of_concrete hm, Value.known?_of_concrete hn]
      exact Value.only_eq_some.2 ⟨he.concrete, rfl⟩
    have hact : xor u v e = (.ok (r.refineZero e.machine.active e.machine.symbolic).1,
        e.withSymbolic (r.refineZero e.machine.active e.machine.symbolic).2) := by
      unfold xor
      rw [apply_bind_ok (apply_get e), apply_check_ok hr]
      rfl
    refine ⟨.ok _, _, hact, hnext.ge, Word.binary .xor u.bits m n, ?_⟩
    rw [← hshape.bits] at hrn ⊢
    obtain heq | ⟨heq, t, ht, hzero⟩ := hcases
    · rw [heq]
      refine ⟨rfl, hshape.wellFormed.mono (widths_mono hnext.ge), hrn, fun start ρ _ _ hd => ?_⟩
      refine ⟨ρ, fun _ _ => rfl, ?_⟩
      rw [hshape.bits]
      exact hdesc ρ m n (hd _ (.tail _ List.mem_cons_self)) (hd _ List.mem_cons_self)
    · rw [heq]
      have hwf := hshape.wellFormed.mono (widths_mono hnext.ge)
      refine ⟨rfl, ⟨hwf.pos, hwf.le, hwf.concrete, hwf.symbolic⟩, hrn,
        fun start ρ hsolver _ hd => ?_⟩
      refine ⟨ρ, fun _ _ => rfl, ?_⟩
      have hd := hdesc ρ m n (hd _ (.tail _ List.mem_cons_self)) (hd _ List.mem_cons_self)
      rw [← hshape.bits] at hd
      have hright := Symbolic.proveZero_right (hsolver.below e.machine.symbolic.nextVariable)
        (hshape.wellFormed.symbolic t ht).1 e.machine.symbolic
      rw [hzero] at hright
      refine ⟨hd.lt, hd.concrete, ?_, hd.symbolic⟩
      rintro i ⟨⟩
      rw [← hd.symbolic t ht, hright ρ]
      exact Interval.mem_exact_of_lt hshape.wellFormed.le (Word.count_pos _)
  · rw [if_neg h]
    refine ⟨.error (.operandWidths "xor_" u.bits v.bits), e.machine.symbolic, ?_, Nat.le_refl _,
      fun _ => rfl⟩
    unfold xor
    rw [apply_bind_ok (apply_get e), apply_check_error (Value.binary_error _ _ h)]
    rfl

theorem memory_computes (hfresh : V.Fresh e.machine.symbolic.nextVariable) (he : e.Ready V)
    (hu : u.WellFormed (e.widths V)) (hm : u.concrete = some m) (size : Nat) :
    Computes V e ((u, m) :: env) (readMemory u size)
      (do checkAccessWidth size; pure (size, e.machine.load m size)) (u.bits = addressBits) := by
  have hacc : Accessible (e.widths V) e u m := ⟨he.concrete, he.triggered, he.cells, hu, hm⟩
  rcases checkAccessWidth_cases size with hw | hw
  · rw [hw]
    by_cases hat : e.machine.active.contains .symbolic = true →
        ∀ t, u.symbolic? = some t → IsAddress t
    · obtain ⟨v, s, hread, hv⟩ := readMemory_ok hacc hw hat
      refine ⟨.ok v, s, hread, hv.le, e.machine.load m size, by rw [hv.width]; rfl,
        hv.wellFormed.mono (Widths.below_of_withBytes hfresh hv.le), hv.concrete, ?_⟩
      intro start ρ hsolver hcons hd
      exact hv.sound start ρ (hsolver.below _) (fun id w hid => hid.2)
        (hd _ List.mem_cons_self) hcons.log
    · push Not at hat
      obtain ⟨hsym, base, hbase, hat⟩ := hat
      refine ⟨_, e.machine.symbolic, readMemory_address hacc hsym hw hbase hat, Nat.le_refl _, ?_⟩
      exact fun hwide => absurd (.inl ((hu.symbolic? hbase).2.trans hwide)) hat
  · rw [hw]
    exact ⟨_, e.machine.symbolic, readMemory_width hw, Nat.le_refl _, fun _ => rfl⟩

theorem register_computes (he : e.Ready V) (name : String) :
    Computes V e env (do liftM ((← get).machine.readNamed name))
      (do let r ← Register.named name; pure (r.bits, e.registerNumber r)) True := by
  cases hr : Register.named name with
  | error fault =>
    refine ⟨.error fault, e.machine.symbolic, ?_, Nat.le_refl _, fun _ => rfl⟩
    rw [apply_bind_ok (apply_get e), apply_liftExcept, Machine.readNamed, hr]
    rfl
  | ok r =>
    refine ⟨.ok (e.machine.readRegister r), e.machine.symbolic, ?_, Nat.le_refl _,
      e.registerNumber r, ?_, ?_, ?_, ?_⟩
    · rw [apply_bind_ok (apply_get e), apply_liftExcept, Machine.readNamed, hr]
      rfl
    · rw [Machine.readRegister, Value.bits_restrict, he.bits]
      rfl
    · exact Value.wellFormed_restrict (he.registers r) _
    · exact Value.only_eq_some.2 ⟨he.concrete, he.registerNumber r⟩
    · exact fun start ρ _ hcons _ => ⟨ρ, fun _ _ => rfl, hcons.registers r⟩

theorem combine_computes (op : BinaryOp) (he : e.Ready V) (hu : u.WellFormed (e.widths V))
    (hm : u.concrete = some m) (hv : v.WellFormed (e.widths V)) (hn : v.concrete = some n) :
    Computes V e ((v, n) :: (u, m) :: env) (combine op u v)
      (if u.bits = v.bits then pure (u.bits, Word.binary op u.bits m n)
        else throw (.operandWidths op.label u.bits v.bits)) True := by
  cases op with
  | xor => exact xor_computes he hu hm hv hn
  | _ => exact binary_computes _ he hu hm hv hn

end

/-! ### Expressions -/

/-- **Evaluation.** By induction on the expression: every form computes its number from those
of its operands, which are well formed where they are used. -/
theorem evaluate_computes {x : Expr} (hx : x.Defined)
    (hfresh : V.Fresh e.machine.symbolic.nextVariable) (he : e.Ready V)
    (henv : ∀ p ∈ env, p.1.WellFormed (e.widths V)) :
    Computes V e env (evaluate x) (e.number x) x.WideAddresses := by
  induction x generalizing e env with
  | const value size => exact (number_computes he value size).imp fun _ => trivial
  | register name => exact (register_computes he name).imp fun _ => trivial
  | memory size a ih =>
    refine Computes.bind he henv (ih hx hfresh he henv) fun u m s hnumber hu hle => ?_
    exact (memory_computes (hfresh.mono hle) (he.withSymbolic hle) hu.wellFormed hu.concrete
      size).imp fun hwide => hwide u.bits (Expr.width?_of_number hnumber)
  | binary op a b iha ihb =>
    refine (Computes.bind he henv (iha hx.1 hfresh he henv) fun u m s _ hu hle => ?_).imp
      (p := a.WideAddresses ∧ b.WideAddresses ∧ True) fun h => ⟨h.1, h.2, trivial⟩
    have he₁ := he.withSymbolic hle
    have hfresh₁ := hfresh.mono hle
    have henv₁ := wellFormed_env (n := m) henv hle hu.wellFormed
    refine Computes.bind he₁ henv₁ (ihb hx.2 hfresh₁ he₁ henv₁) fun v n s' _ hv hle' => ?_
    exact combine_computes op (he₁.withSymbolic hle') (hu.wellFormed.mono (widths_mono hle'))
      hu.concrete hv.wellFormed hv.concrete
  | invert a ih =>
    refine (Computes.bind he henv (ih hx hfresh he henv) fun u m s _ hu hle => ?_).imp
      (p := a.WideAddresses ∧ True) fun h => ⟨h, trivial⟩
    exact invert_computes (he.withSymbolic hle) hu.wellFormed hu.concrete
  | slice a lo hi ih =>
    refine (Computes.bind he henv (ih hx hfresh he henv) fun u m s _ hu hle => ?_).imp
      (p := a.WideAddresses ∧ True) fun h => ⟨h, trivial⟩
    exact slice_computes (he.withSymbolic hle) hu.wellFormed hu.concrete lo hi
  | concat lo hi ihl ihh =>
    refine (Computes.bind he henv (ihl hx.1 hfresh he henv) fun u m s _ hu hle => ?_).imp
      (p := lo.WideAddresses ∧ hi.WideAddresses ∧ True) fun h => ⟨h.1, h.2, trivial⟩
    have he₁ := he.withSymbolic hle
    have henv₁ := wellFormed_env (n := m) henv hle hu.wellFormed
    refine Computes.bind he₁ henv₁ (ihh hx.2 (hfresh.mono hle) he₁ henv₁) fun v n s' _ hv hle' => ?_
    exact concat_computes (he₁.withSymbolic hle') (hu.wellFormed.mono (widths_mono hle'))
      hu.concrete hv.wellFormed hv.concrete
  | isZero a ih =>
    refine (Computes.bind he henv (ih hx hfresh he henv) fun u m s _ hu hle => ?_).imp
      (p := a.WideAddresses ∧ True) fun h => ⟨h, trivial⟩
    exact isZero_computes (he.withSymbolic hle) hu.wellFormed hu.concrete
  | ite c t f ihc iht ihf =>
    refine (Computes.bind he henv (ihc hx.1 hfresh he henv) fun w k s _ hw hle => ?_).imp
      (p := c.WideAddresses ∧ t.WideAddresses ∧ f.WideAddresses ∧ True)
      fun h => ⟨h.1, h.2.1, h.2.2, trivial⟩
    have he₁ := he.withSymbolic hle
    have henv₁ := wellFormed_env (n := k) henv hle hw.wellFormed
    refine Computes.bind he₁ henv₁ (iht hx.2.1 (hfresh.mono hle) he₁ henv₁)
      fun u m s' _ hu hle' => ?_
    have he₂ := he₁.withSymbolic hle'
    have henv₂ := wellFormed_env (n := m) henv₁ hle' hu.wellFormed
    refine Computes.bind he₂ henv₂ (ihf hx.2.2 (hfresh.mono (hle.trans hle')) he₂ henv₂)
      fun v n s'' _ hv hle'' => ?_
    exact ite_computes (he₂.withSymbolic hle'')
      ((hw.wellFormed.mono (widths_mono hle')).mono (widths_mono hle'')) hw.concrete
      (hu.wellFormed.mono (widths_mono hle'')) hu.concrete hv.wellFormed hv.concrete
  | undefined size => exact hx.elim

end Engine
end Lockstep
