/-
# Loads of steady engines

Where the solver goes by the query and every cell has a term, what a load gives
is a function of what the memory is: of the bytes that the machine loads, of the
memory that the cells stand for, and of which cells there are. A byte that no
cell is told to be at lies over a byte that may be any, and the variable of that
byte is known beforehand.

Key definitions: `Engine.misses`, `Engine.byteUnder`, `Engine.termMeaning`, `Engine.Steady`,
`Engine.Tells`.
Key theorems: `Engine.machineReadMemory_steady`, `Engine.Steady.readLogBytes`,
`Engine.Steady.readMemory`.
-/
import Lockstep.Proofs.Engine.Missed
import Lockstep.Proofs.Engine.RoundTrip
import Lockstep.Proofs.Memory.Order

namespace Lockstep
namespace Engine

variable {σ : Type} {V : Widths} {answers : Option Answers} {base : Term} {e : Engine σ}
  {address : Value} {bits count : Nat}

/-! ### What a load tells -/

/-- How many of the bytes below a place are such that no cell is told to be there. -/
def misses (answers : Option Answers) (base : Term) (e : Engine σ) (place : Nat) : Nat :=
  (List.range place).countP fun i =>
    !MemoryLog.findsBase answers (byteTerm base i) e.config.readPruning e.log.cells

/-- The byte at a place under an assignment, as the cells have it. What lies under them is a new
variable, the next one for each byte that no cell is told to be at. -/
def byteUnder (answers : Option Answers) (base : Term) (e : Engine σ) (ρ : Assignment)
    (place : Nat) : Nat :=
  MemoryLog.overwritten ρ
    (fun _ => Word.truncate 8 (ρ (e.machine.symbolic.nextVariable + misses answers base e place)))
    (MemoryLog.withBytes ρ e.log.cells) (byteAddress (base.eval ρ) place)

/-- What the term of a load denotes under an assignment: the bytes in the log, or any word if the
address has no term, and nothing without the symbolic domain. -/
def termMeaning (answers : Option Answers) (e : Engine σ) (address : Value) (bits : Nat)
    (ρ : Assignment) : Option Nat :=
  e.machine.active.only .symbolic <| some <|
    match address.symbolic? with
    | some base => Word.gather (byteUnder answers base e ρ) (bits / 8)
    | none => Word.truncate bits (ρ e.machine.symbolic.nextVariable)

theorem misses_succ (answers : Option Answers) (base : Term) (e : Engine σ) (place : Nat) :
    misses answers base e (place + 1) = misses answers base e place +
      if MemoryLog.findsBase answers (byteTerm base place) e.config.readPruning e.log.cells
      then 0 else 1 := by
  unfold misses
  rw [List.range_succ, List.countP_append, List.countP_singleton]
  cases MemoryLog.findsBase answers (byteTerm base place) e.config.readPruning e.log.cells <;> rfl

/-! ### Loads -/

/-- A triggered engine whose solver is right and goes by the query, and whose cells all have
terms. -/
structure Steady [Solver σ] (V : Widths) (answers : Option Answers) (e : Engine σ) : Prop where
  triggered : e.governor.isTriggered = true
  right : Solver.RightOver σ V
  symbolic : e.machine.symbolic.Steady answers
  cells : ∀ c ∈ e.log.cells, c.WellFormed V ∧ c.HasTerm

theorem undefined_active {active : DomainSet} (hs : active.contains .symbolic = true)
    (hpos : 0 < bits) (hle : bits ≤ maxBits) (s : Symbolic σ) :
    Value.undefined active bits s =
      (.ok { bits, interval := active.only .interval (some (.top bits)),
             symbolic := some (.var bits s.nextVariable) },
        { s with nextVariable := s.nextVariable + 1 }) := by
  have hfresh : (Symbolic.fresh bits : SymbolicM σ Term) s =
      (.var bits s.nextVariable, { s with nextVariable := s.nextVariable + 1 }) := rfl
  unfold Value.undefined
  rw [apply_check_ok (Value.checkWidth_eq hpos hle), if_pos hs, apply_bind_ok (apply_liftM _ _),
    hfresh, apply_liftExcept, Value.setSymbolic_eq rfl]

/-- What the machine knows of a word in memory: its number at a known address, and any term. -/
theorem machineReadMemory_steady (hw : checkAccessWidth bits = .ok ())
    (haddress : address.checkOperand "address" = .ok ()) :
    ∃ v s, onMachine (Machine.readMemory address bits) e = (.ok v, e.withSymbolic s) ∧
      v.symbolic =
        e.machine.active.only .symbolic (some (.var bits e.machine.symbolic.nextVariable)) ∧
      v.concrete =
        e.machine.active.only .concrete (address.known?.map (e.machine.load · bits)) := by
  obtain ⟨-, hpos, hle⟩ := bounds_of_checkAccessWidth hw
  rw [onMachine_readMemory, apply_check_ok hw, apply_check_ok haddress, apply_get_bind]
  have hwarn : ∃ s : Symbolic σ,
      (if e.machine.active.contains .concrete && address.known?.isNone then
      onMachine (Machine.note .warn fun _ =>
        "memory read with no concrete address; concrete result unknown")
      else pure () : EngineM σ Unit) e = (.ok (), e.withSymbolic s) ∧
        s.nextVariable = e.machine.symbolic.nextVariable := by
    split
    · exact ⟨_, rfl, rfl⟩
    · exact ⟨e.machine.symbolic, rfl, rfl⟩
  obtain ⟨s, hnote, hnext⟩ := hwarn
  have hrun {r : Except Fault Value} {s' : Symbolic σ}
      (h : Value.undefined e.machine.active bits s = (r, s')) :
      symbolically (Value.undefined e.machine.active bits) (e.withSymbolic s) =
        (r, e.withSymbolic s') := by
    simp only [symbolically, onMachine, Machine.symbolically, withSymbolic, h]
  rw [apply_bind_ok hnote, ← hnext]
  unfold numberedWord
  by_cases hs : e.machine.active.contains .symbolic = true
  · rw [apply_bind_ok (hrun (undefined_active hs hpos hle s))]
    exact ⟨_, _, rfl, (Value.only_eq_some.2 ⟨hs, rfl⟩).symm, rfl⟩
  · rw [Bool.not_eq_true] at hs
    have hnone : e.machine.active.only .symbolic (some (Term.var bits s.nextVariable)) = none := by
      rw [DomainSet.only, hs, if_neg Bool.false_ne_true]
    rw [apply_bind_ok (hrun (undefined_eq hpos hle hs s)), hnone]
    exact ⟨_, _, rfl, rfl, rfl⟩

variable [Solver σ]

theorem Steady.byteUnder_lt (h : e.Steady V answers) (base : Term) (ρ : Assignment) (place : Nat) :
    byteUnder answers base e ρ place < Word.count 8 := by
  refine MemoryLog.overwritten_lt (fun _ => Word.truncate_lt _ _) (fun p hp => ?_) _
  obtain ⟨c, hc, rfl⟩ := List.mem_map.1 hp
  obtain ⟨hwf, hterm⟩ := h.cells c hc
  obtain ⟨t, ht⟩ := Option.isSome_iff_exists.1 hterm
  obtain ⟨hty, hwidth⟩ := hwf.value.symbolic? ht
  rw [Cell.byteUnder_of_some ht]
  exact (hwidth.trans hwf.bits) ▸ hty.eval_lt ρ

/-- **A word out of the log of a steady engine** has a term that denotes the bytes in the log. By
induction on the bytes: each is read in a steady state with as many new variables as bytes below
it are such that no cell is told to be there. -/
theorem Steady.readLogBytes (h : e.Steady V answers)
    (hs : e.machine.active.contains .symbolic = true) (hbase : base.Typed V)
    (hwidth : base.width = addressBits) (hpos : 0 < count) (hmax : 8 * count ≤ maxBits) :
    ∃ v s, Engine.readLogBytes base count e = (.ok v, e.withSymbolic s) ∧
      v.Carries (8 * count) fun u =>
        ∀ ρ, u.eval ρ = Word.gather (byteUnder answers base e ρ) count := by
  let state (i : Nat) (s : Symbolic σ) : Prop := s.Steady answers ∧
    s.nextVariable = e.machine.symbolic.nextVariable + misses answers base e i
  let byte (i : Nat) (b : Term) : Prop :=
    b.Denotes (fun _ _ => True) 8 fun ρ => byteUnder answers base e ρ i
  let low (k : Nat) (u : Term) : Prop :=
    u.Denotes (fun _ _ => True) (8 * k) fun ρ => Word.gather (byteUnder answers base e ρ) k
  have hbyte (i : Nat) (_ : i < count) (s : Symbolic σ) (hstate : state i s) :
      ∃ v s', readLogByte base i (e.withSymbolic s) = (.ok v, e.withSymbolic s') ∧
        state (i + 1) s' ∧ v.Carries 8 (byte i) := by
    obtain ⟨hsteady, hnext⟩ := hstate
    have hden := denotes_byteTerm hbase (.inl hwidth) i
    obtain ⟨v, t, s', hread, hsteady', hnext', hbits, ht, htden⟩ :=
      MemoryLog.readByte_steady h.right hsteady h.cells hden.typed hden.width e.config.readPruning
    refine ⟨v, s', readLogByte_of_readByte hread, ⟨hsteady', ?_⟩, hbits, t, ht, htden.width, ?_⟩
    · rw [hnext', hnext, misses_succ, Nat.add_assoc]
    · refine htden.congr fun ρ => ?_
      rw [hnext, hden.eval]
      rfl
  have hfirst (b : Term) (hb : byte 0 b) : low 1 b := by
    refine hb.congr fun ρ => ?_
    simp [Word.gather, Word.weight_eq]
  have hnext (k : Nat) (_ : 0 < k) (hk : k < count) (a b : Term) (_ : a.width = 8 * k)
      (_ : b.width = 8) (ha : low k a) (hb : byte k b) :
      (Term.mkConcat a (8 * k) b 8).width = 8 * k + 8 ∧ low (k + 1) (.mkConcat a (8 * k) b 8) := by
    have hden := Term.denotes_mkConcat ha hb (by omega)
    refine ⟨hden.width, hden.congr fun ρ => ?_⟩
    rw [Word.gather_succ (fun i _ => h.byteUnder_lt base ρ i) (by omega)]
  have hstart : state 0 e.machine.symbolic := ⟨h.symbolic, rfl⟩
  obtain ⟨v, s, hread, -, hbits, u, hu, huw, hlow⟩ :=
    readLogBytes_carries hs hpos hmax hbyte hfirst hnext hstart
  exact ⟨v, s, hread, hbits, u, hu, huw, hlow.eval⟩

/-- What a load tells: its term has the meaning that the cells and the address give it, and at a
known address its number is the one that the machine loads. -/
structure Tells (answers : Option Answers) (e : Engine σ) (address : Value) (bits : Nat)
    (v : Value) : Prop where
  term : ∀ ρ, v.symbolic.map (·.eval ρ) = termMeaning answers e address bits ρ
  number : address.known?.isSome = true →
    v.concrete = e.machine.active.only .concrete (address.known?.map (e.machine.load · bits))

omit [Solver σ] in
/-- The load of the machine tells what it should where the address has no term. -/
theorem machineReadMemory_tells {s : Symbolic σ}
    (hnext : s.nextVariable = e.machine.symbolic.nextVariable)
    (hknown : address.checkOperand "address" = .ok ()) (hw : checkAccessWidth bits = .ok ())
    (hterm : e.machine.active.contains .symbolic = true → address.symbolic? = none)
    (answers : Option Answers) :
    ∃ v s', onMachine (Machine.readMemory address bits) (e.withSymbolic s) =
      (.ok v, e.withSymbolic s') ∧ e.Tells answers address bits v := by
  obtain ⟨v, s', hread, hv, hc⟩ := machineReadMemory_steady (e := e.withSymbolic s) hw hknown
  refine ⟨v, s', hread, fun ρ => ?_, fun _ => hc⟩
  have hv : v.symbolic = e.machine.active.only .symbolic (some (.var bits s.nextVariable)) := hv
  rw [hv, hnext]
  unfold termMeaning DomainSet.only
  by_cases hs : e.machine.active.contains .symbolic = true
  · rw [if_pos hs, if_pos hs, hterm hs]
    rfl
  · rw [if_neg hs, if_neg hs]
    rfl

/-- Without the concrete domain the word out of the log is the load, less its inactive parts. -/
theorem readMemory_numberless {u : Value} {s : Symbolic σ} (htrig : e.governor.isTriggered = true)
    (hs : e.machine.active.contains .symbolic = true)
    (hc : e.machine.active.contains .concrete = false) (hw : checkAccessWidth bits = .ok ())
    (hbase : address.symbolic? = some base)
    (hread : Engine.readLogBytes base (bits / 8) e = (.ok u, e.withSymbolic s)) :
    Engine.readMemory address bits e =
      (.ok (u.restrict e.machine.active), e.withSymbolic s) := by
  have hc : (e.withSymbolic s).machine.active.contains .concrete = false := hc
  unfold Engine.readMemory
  rw [apply_get_bind, htrig, Bool.not_true, if_neg Bool.false_ne_true, apply_check_ok hw,
    apply_check_ok (Value.checkOperand_of_symbolic? hbase _), hs, Bool.not_true,
    if_neg Bool.false_ne_true, Value.ensureTerm_of_symbolic? hs hbase]
  dsimp only
  rw [apply_bind_ok hread, apply_get_bind, hc, if_neg Bool.false_ne_true]
  rfl

/-- A load out of the log tells what it should: its number is taken from the machine. -/
theorem Steady.readMemory_log (h : e.Steady V answers)
    (hs : e.machine.active.contains .symbolic = true) (hbase : address.symbolic? = some base)
    (htbase : base.Typed V) (hwbase : base.width = addressBits)
    (hw : checkAccessWidth bits = .ok ()) :
    ∃ v s, Engine.readMemory address bits e = (.ok v, e.withSymbolic s) ∧
      e.Tells answers address bits v := by
  obtain ⟨h8, hpos, hle⟩ := bounds_of_checkAccessWidth hw
  obtain ⟨u, s, hread, hubits, t, ht, htw, heval⟩ :=
    h.readLogBytes hs htbase hwbase (show 0 < bits / 8 by omega) (by omega)
  obtain ⟨v, hload, hbits, t', ht', -, rfl⟩ := readMemory_carries (P := (· = t)) h.triggered hs hw
    hbase hread ⟨hubits.trans h8, t, ht, htw.trans h8, rfl⟩
  refine ⟨v, s, hload, fun ρ => ?_, fun hknown => ?_⟩
  · rw [ht', Option.map_some, heval]
    unfold termMeaning
    rw [hbase]
    exact (Value.only_eq_some.2 ⟨hs, rfl⟩).symm
  · obtain ⟨a, ha⟩ := Option.isSome_iff_exists.1 hknown
    rw [ha, Option.map_some]
    by_cases hc : e.machine.active.contains .concrete = true
    · rw [concrete_readMemory hc ha hload]
      exact (Value.only_eq_some.2 ⟨hc, rfl⟩).symm
    · rw [Bool.not_eq_true] at hc
      have hplain := readMemory_numberless h.triggered hs hc hw hbase hread
      obtain rfl := Except.ok.inj (congrArg Prod.fst (hload.symm.trans hplain))
      show e.machine.active.only .concrete u.concrete = _
      rw [DomainSet.only, DomainSet.only, hc, if_neg Bool.false_ne_true, if_neg Bool.false_ne_true]

/-- **A load of a steady engine** succeeds, and it tells the same wherever its address has the same
meaning, the machine loads the same and the cells tell the same. -/
theorem Steady.readMemory (h : e.Steady V answers) (haddress : address.WellFormed V)
    (hbits : address.bits = addressBits) (hknown : address.checkOperand "address" = .ok ())
    (hw : checkAccessWidth bits = .ok ()) :
    ∃ v s, Engine.readMemory address bits e = (.ok v, e.withSymbolic s) ∧
      e.Tells answers address bits v := by
  by_cases hs : e.machine.active.contains .symbolic = true
  · cases hbase : address.symbolic? with
    | some base =>
      obtain ⟨htbase, hwbase⟩ := haddress.symbolic? hbase
      exact h.readMemory_log hs hbase htbase (hwbase.trans hbits) hw
    | none =>
      have hens : address.ensureTerm e.machine.active =
          .error (.underivable .symbolic address) := by
        rw [Value.ensureTerm, hs, hbase]
        rfl
      obtain ⟨s₀, hnote, hnext⟩ := note_eq e .warn fun _ =>
        "memory read falls back to per-domain: " ++ (Fault.underivable .symbolic address).message
      obtain ⟨v, s, hread, htells⟩ :=
        machineReadMemory_tells hnext hknown hw (fun _ => hbase) answers
      refine ⟨v, s, ?_, htells⟩
      unfold Engine.readMemory
      rw [apply_get_bind, h.triggered, Bool.not_true, if_neg Bool.false_ne_true,
        apply_check_ok hw, apply_check_ok hknown, hs, Bool.not_true, if_neg Bool.false_ne_true,
        hens]
      dsimp only
      rw [apply_bind_ok hnote]
      exact hread
  · obtain ⟨v, s, hread, htells⟩ := machineReadMemory_tells (e := e) (s := e.machine.symbolic) rfl
      hknown hw (fun hactive => absurd hactive hs) answers
    refine ⟨v, s, ?_, htells⟩
    rw [Bool.not_eq_true] at hs
    unfold Engine.readMemory
    rw [apply_get_bind, h.triggered, Bool.not_true, if_neg Bool.false_ne_true, apply_check_ok hw,
      apply_check_ok hknown, hs, Bool.not_false, if_pos rfl]
    exact hread

end Engine
end Lockstep
