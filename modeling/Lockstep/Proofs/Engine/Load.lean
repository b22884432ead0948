/-
# Loads of the engine

A load out of the log gathers the bytes at the wrapping addresses. It succeeds
with a word that describes what the memory of the log holds there, and it
changes the symbolic state only. A load of the engine goes to the log or to
the bus, and its number is the word on the bus in both cases.

Key definitions: `Engine.withSymbolic`, `Engine.IsAddress`, `Cell.Holds`, `Engine.Mirrors`,
`Engine.Accessible`, `Engine.LoadsWord`.
Key theorems: `Engine.denotes_byteTerm`, `Engine.readLogBytes_spec`, `Engine.Mirrors.bytes`,
`Engine.readMemory_ok`, `Engine.readMemory_width`, `Engine.readMemory_address`.
-/
import Mathlib.Data.List.Forall2
import Lockstep.Proofs.Memory.Bytes
import Lockstep.Proofs.Memory.Read
import Lockstep.Proofs.Value.Operations

namespace Lockstep
namespace Engine

variable {σ : Type} {V : Widths} {base : Term}

/-- The engine with another symbolic state. -/
def withSymbolic (e : Engine σ) (s : Symbolic σ) : Engine σ :=
  { e with machine := { e.machine with symbolic := s } }

/-! ### The addresses of bytes -/

/-- Does a term stand for addresses? A constant of any width does. -/
def IsAddress (base : Term) : Prop := base.width = addressBits ∨ base.const?.isSome = true

/-- The term of the byte at an offset denotes its wrapping address. -/
theorem denotes_byteTerm (hbase : base.Typed V) (h : IsAddress base) (i : Nat) :
    (byteTerm base i).Denotes V addressBits fun ρ => byteAddress (base.eval ρ) i := by
  have hadd (n : Nat) : Word.binary .add addressBits n (Word.truncate addressBits i) =
      byteAddress n i := by
    unfold Word.binary byteAddress Word.truncate
    exact Nat.add_mod_mod n i _
  rcases h with hw | hc
  · have hoffset := Term.denotes_number (V := V) (w := addressBits) (by decide) (by decide) i
    exact (Term.denotes_mkBinary ⟨hbase, hw, fun _ => rfl⟩ hoffset .add).congr fun ρ => hadd _
  · cases base with
    | const w v =>
      exact (Term.denotes_number_of_lt (by decide) (by decide)
        (Word.binary_lt .add addressBits v _)).congr fun ρ => hadd v
    | _ => cases hc

/-- A term that does not stand for addresses is itself that of the first byte. -/
theorem byteTerm_zero (h : ¬ IsAddress base) : byteTerm base 0 = base := by
  have hc : base.const? = none := by
    cases hv : base.const? with
    | none => rfl
    | some n => exact absurd (.inr (by rw [hv]; rfl)) h
  unfold byteTerm Term.mkBinary
  rw [hc]
  simp only [Term.mkBinaryOpen, hc, reduceCtorEq, if_false]
  rfl

/-! ### Bytes out of the log -/

variable [Solver σ]

theorem readLogByte_spec (e : Engine σ) (hlog : ∀ c ∈ e.log.cells, c.WellFormed V)
    (hbase : base.Typed V) (h : IsAddress base) (i : Nat) :
    ∃ v s', readLogByte base i e = (.ok v, e.withSymbolic s') ∧
      MemoryLog.ReadsWord V e.log.cells 8
        (fun ρ memory => memory (byteAddress (base.eval ρ) i)) e.machine.symbolic s' v := by
  have hden := denotes_byteTerm hbase h i
  obtain ⟨v, s', hread, -, hv⟩ := MemoryLog.readByte_spec e.log hlog hden.typed hden.width
    e.config.readPruning e.machine.symbolic
  refine ⟨v, s', ?_, hv.le, hv.bits, hv.wellFormed, fun hsolver hV ρ memory l hmemory hl hd => ?_⟩
  · unfold readLogByte
    rw [apply_bind_ok (apply_get e)]
    simp only [symbolically, onMachine, Machine.symbolically, hread]
    rfl
  · rw [← hden.eval]
    exact hv.sound hsolver hV ρ memory l hmemory hl hd

/-- **Words out of the log.** By induction on the bytes: each is read in the
state that the one before left, under the assignment that its read extended. -/
theorem readLogBytes_spec (e : Engine σ) (hlog : ∀ c ∈ e.log.cells, c.WellFormed V)
    (hbase : base.Typed V) (h : IsAddress base) (count : Nat) (hpos : 0 < count)
    (hmax : 8 * count ≤ maxBits) :
    ∃ v s', readLogBytes base count e = (.ok v, e.withSymbolic s') ∧
      MemoryLog.ReadsWord V e.log.cells (8 * count)
        (fun ρ memory => Word.gather (fun i => memory (byteAddress (base.eval ρ) i)) count)
        e.machine.symbolic s' v := by
  obtain ⟨n, rfl⟩ : ∃ n, count = n + 1 := ⟨count - 1, by omega⟩
  unfold readLogBytes
  rw [Nat.add_sub_cancel]
  obtain ⟨first, s₁, hfirst, hv₁⟩ := readLogByte_spec e hlog hbase h 0
  rw [apply_bind_ok hfirst]
  clear hpos
  induction n with
  | zero =>
    refine ⟨first, s₁, rfl, hv₁.le, hv₁.bits, hv₁.wellFormed,
      fun hsolver hV ρ memory l hmemory hl hd => ?_⟩
    obtain ⟨ρ', hρ', hdesc⟩ := hv₁.sound hsolver hV ρ memory l hmemory hl hd
    refine ⟨ρ', hρ', ?_⟩
    simp only [Word.gather, Nat.zero_add, Nat.mul_zero, Word.weight_eq, Nat.pow_zero, Nat.one_mul]
    exact hdesc
  | succ n ih =>
    obtain ⟨lo, s₂, hlo, hread⟩ := ih (by omega)
    rw [List.range_succ, List.foldlM_append, apply_bind_ok hlo]
    obtain ⟨byte, s₃, hbyte, hv₃⟩ :=
      readLogByte_spec (e.withSymbolic s₂) hlog hbase h (n + 1)
    have hwlo := hread.wellFormed.mono
      (V.withBytes_mono (Nat.le_refl e.machine.symbolic.nextVariable) hv₃.le)
    have hwbyte := hv₃.wellFormed.mono (V.withBytes_mono hread.le (Nat.le_refl s₃.nextVariable))
    obtain ⟨v, hv, hshape, hdesc⟩ := Value.concat_ok e.machine.active hwlo hwbyte
      (by rw [hread.bits, hv₃.bits]; omega)
    refine ⟨v, s₃, ?_, hread.le.trans hv₃.le, ?_, hshape.wellFormed, ?_⟩
    · rw [List.foldlM_cons, apply_bind_ok (t := e.withSymbolic s₃) (a := v)]
      · rfl
      · rw [apply_bind_ok hbyte, apply_bind_ok (apply_get _)]
        exact (apply_liftExcept _ _).trans (by rw [← hv]; rfl)
    · rw [hshape.bits, hread.bits, hv₃.bits]
      omega
    · intro hsolver hV ρ memory l hmemory hl hd
      obtain ⟨ρ₂, hρ₂, hd₂⟩ := hread.sound hsolver hV ρ memory l hmemory hl hd
      have hcells : ∀ p ∈ l, p.1.WellFormed V := fun p hp =>
        hlog p.1 (hl ▸ List.mem_map_of_mem hp)
      have hagree : ∀ id w, V id w → ρ id = ρ₂ id := fun id w hid =>
        hρ₂.below (hV id w hid)
      have hV₂ : ∀ id w, V id w → id < s₂.nextVariable := fun id w hid =>
        Nat.lt_of_lt_of_le (hV id w hid) hread.le
      obtain ⟨ρ₃, hρ₃, hd₃⟩ := hv₃.sound hsolver hV₂ ρ₂ memory l hmemory hl fun p hp =>
        (hd p hp).congr (hcells p hp).value hagree
      refine ⟨ρ₃, hρ₂.trans hread.le hv₃.le hρ₃, ?_⟩
      have hlo₃ := hd₂.congr hread.wellFormed fun id w hid =>
        hρ₃.below (Widths.lt_of_withBytes hV hread.le id w hid)
      have hword := hdesc ρ₃ _ _ hlo₃ hd₃
      have hbase₂ : base.eval ρ₂ = base.eval ρ :=
        Term.eval_congr fun id w hm => (hagree id w (hbase.vars id w hm)).symm
      have hsame (a : Nat) : MemoryLog.overwritten ρ₂ memory l a =
          MemoryLog.overwritten ρ memory l a :=
        MemoryLog.overwritten_congr rfl fun p hp => Term.eval_congr fun id w hm =>
          (hagree id w ((hcells p hp).address.vars id w hm)).symm
      rw [Word.gather_succ (fun i _ => MemoryLog.overwritten_lt hmemory (fun p hp =>
        (hcells p hp).bits ▸ (hd p hp).lt) _) (by omega)]
      rwa [hread.bits, hv₃.bits, hbase₂, hsame] at hword

end Engine

/-! ### The log and the bus -/

/-- Does a write put a byte that the cell describes at the address of the cell? -/
structure Cell.Holds (ρ : Assignment) (c : Cell) (w : Nat × UInt8) : Prop where
  address : c.address.eval ρ = w.1
  value : c.value.Describes ρ w.2.toNat

/-- Cells that hold writes stand for the memory after the writes. -/
theorem MemoryLog.overwritten_eq_newest {ρ : Assignment} {cells : List Cell}
    {writes : List (Nat × UInt8)} (h : List.Forall₂ (Cell.Holds ρ) cells writes)
    (memory : Nat → UInt8) :
    ∃ l : List (Cell × Nat), l.map Prod.fst = cells ∧ (∀ p ∈ l, p.1.value.Describes ρ p.2) ∧
      ∀ a, overwritten ρ (fun a => (memory a).toNat) l a =
        (newest writes a (memory a)).toNat := by
  induction h with
  | nil => exact ⟨[], rfl, nofun, fun _ => rfl⟩
  | @cons c w cells writes hc _ ih =>
    obtain ⟨l, hl, hd, hbyte⟩ := ih
    refine ⟨(c, w.2.toNat) :: l, ?_, List.forall_mem_cons.2 ⟨hc.value, hd⟩, fun a => ?_⟩
    · rw [List.map_cons, hl]
    · rw [overwritten, newest_cons, hc.address, hbyte]
      by_cases h : a = w.1
      · rw [if_pos h, if_pos h.symm]
      · rw [if_neg h, if_neg (Ne.symm h)]

namespace Engine

variable {σ : Type} {V : Widths}

/-- **The log mirrors the bus.** Since the bus was `start`, the committed writes went to it,
and the cells of the log hold the staged and the committed writes, one for each. -/
def Mirrors (start : Bus) (ρ : Assignment) (e : Engine σ) : Prop :=
  ∃ committed, e.machine.bus = start.setBytes committed.reverse ∧
    List.Forall₂ (Cell.Holds ρ) e.log.cells (e.machine.staged.getD [] ++ committed)

/-- What the mirrored log stands for is what the machine loads. -/
theorem Mirrors.bytes {start : Bus} {ρ : Assignment} {e : Engine σ} (h : e.Mirrors start ρ) :
    ∃ l : List (Cell × Nat), l.map Prod.fst = e.log.cells ∧
      (∀ p ∈ l, p.1.value.Describes ρ p.2) ∧
      ∀ a, MemoryLog.overwritten ρ (fun a => (start.getByte a).toNat) l a =
        (e.machine.getByte a).toNat := by
  obtain ⟨committed, hbus, hcells⟩ := h
  obtain ⟨l, hl, hd, hbyte⟩ := MemoryLog.overwritten_eq_newest hcells start.getByte
  refine ⟨l, hl, hd, fun a => ?_⟩
  rw [hbyte, Machine.getByte_eq, newest_append, hbus, Bus.getByte_setBytes]

/-! ### Loads -/

theorem checkAccessWidth_cases (bits : Nat) :
    checkAccessWidth bits = .ok () ∨ checkAccessWidth bits = .error (.accessWidth bits) := by
  unfold checkAccessWidth
  split
  · exact .inl rfl
  · exact .inr rfl

/-- The widths of memory accesses are those of one to four bytes. -/
theorem bounds_of_checkAccessWidth {bits : Nat} (h : checkAccessWidth bits = .ok ()) :
    8 * (bits / 8) = bits ∧ 0 < bits ∧ bits ≤ maxBits := by
  unfold checkAccessWidth at h
  split at h
  · unfold maxBits
    omega
  · cases h

theorem undefined_eq {active : DomainSet} {bits : Nat} (hpos : 0 < bits) (hle : bits ≤ maxBits)
    (hsym : active.contains .symbolic = false) (s : Symbolic σ) :
    Value.undefined active bits s =
      (.ok { bits, interval := active.only .interval (some (.top bits)) }, s) := by
  unfold Value.undefined
  rw [apply_check_ok (Value.checkWidth_eq hpos hle), hsym]
  rfl

theorem machineReadMemory_eq {m : Machine σ} {address : Value} {a bits : Nat}
    (hw : checkAccessWidth bits = .ok ()) (hsym : m.active.contains .symbolic = false)
    (ha : address.concrete = some a) :
    Machine.readMemory address bits m =
      (.ok { bits, concrete := m.active.only .concrete (some (m.load a bits)),
             interval := m.active.only .interval (some (.top bits)) }, m) := by
  obtain ⟨-, hpos, hle⟩ := bounds_of_checkAccessWidth hw
  have hknown := Value.known?_of_concrete ha
  unfold Machine.readMemory
  rw [apply_check_ok hw,
    apply_check_ok (Value.checkOperand_eq ha _),
    apply_bind_ok (apply_get m)]
  rw [hknown, Option.isNone_some, Bool.and_false, if_neg Bool.false_ne_true]
  have hv : Machine.symbolically (Value.undefined m.active bits) m =
      (.ok { bits, interval := m.active.only .interval (some (.top bits)) }, m) := by
    unfold Machine.symbolically
    rw [undefined_eq hpos hle hsym]
  beta_reduce
  rw [apply_bind_ok hv]
  rfl

variable [Solver σ]

/-- A loaded word: it has the given width, its number is the word on the bus, and if the log
mirrors the bus it describes this number. -/
structure LoadsWord (V : Widths) (e : Engine σ) (address : Value) (a bits : Nat) (v : Value)
    (s' : Symbolic σ) : Prop where
  le : e.machine.symbolic.nextVariable ≤ s'.nextVariable
  width : v.bits = bits
  wellFormed : v.WellFormed (V.withBytes e.machine.symbolic.nextVariable s'.nextVariable)
  concrete : v.concrete = some (e.machine.load a bits)
  sound : ∀ (start : Bus) (ρ : Assignment), Solver.RightOver σ V →
    (∀ id w, V id w → id < e.machine.symbolic.nextVariable) → address.Describes ρ a →
    (e.machine.active.contains .symbolic = true → e.Mirrors start ρ) →
    ∃ ρ', ρ.AgreesOutside e.machine.symbolic.nextVariable s'.nextVariable ρ' ∧
      v.Describes ρ' (e.machine.load a bits)

/-- What the engine asks of an access: the concrete domain is active, the symbolic one only
after the trigger, the cells and the address are well formed and the address is known. -/
structure Accessible (V : Widths) (e : Engine σ) (address : Value) (a : Nat) : Prop where
  concrete : e.machine.active.contains .concrete = true
  triggered : e.machine.active.contains .symbolic = true → e.governor.isTriggered = true
  cells : ∀ c ∈ e.log.cells, c.WellFormed V
  wellFormed : address.WellFormed V
  known : address.concrete = some a

variable {e : Engine σ} {address : Value} {a bits : Nat}

theorem readMemory_bus (h : Accessible V e address a)
    (hsym : e.machine.active.contains .symbolic = false) (hw : checkAccessWidth bits = .ok ()) :
    ∃ v s', readMemory address bits e = (.ok v, e.withSymbolic s') ∧
      LoadsWord V e address a bits v s' := by
  obtain ⟨h8, hpos, hle⟩ := bounds_of_checkAccessWidth hw
  let v : Value :=
    { bits, concrete := e.machine.active.only .concrete (some (e.machine.load a bits)),
      interval := e.machine.active.only .interval (some (.top bits)) }
  have hbus : onMachine (Machine.readMemory address bits) e =
      (.ok v, e.withSymbolic e.machine.symbolic) := by
    unfold onMachine
    rw [machineReadMemory_eq hw hsym h.known]
    rfl
  have hlt := Machine.load_lt e.machine a h8 hle
  refine ⟨v, e.machine.symbolic, ?_, Nat.le_refl _, rfl, ⟨hpos, hle, fun n hn => ?_, nofun⟩, ?_, ?_⟩
  · unfold readMemory
    rw [apply_bind_ok (apply_get e)]
    cases htrig : e.governor.isTriggered with
    | false => exact hbus
    | true =>
      rw [Bool.not_true, if_neg Bool.false_ne_true,
        apply_check_ok hw,
        apply_check_ok (Value.checkOperand_eq h.known _), hsym]
      exact hbus
  · obtain rfl := Option.some.inj (Value.only_eq_some.1 hn).2
    exact hlt
  · exact Value.only_eq_some.2 ⟨h.concrete, rfl⟩
  · intro start ρ _ _ _ _
    refine ⟨ρ, fun _ _ => rfl, hlt, fun n hn => ?_, fun i hi => ?_, nofun⟩
    · exact (Option.some.inj (Value.only_eq_some.1 hn).2).symm
    · obtain rfl := Option.some.inj (Value.only_eq_some.1 hi).2
      exact Interval.mem_top hle hlt

theorem readMemory_log (h : Accessible V e address a) {base : Term}
    (hsym : e.machine.active.contains .symbolic = true) (hw : checkAccessWidth bits = .ok ())
    (hbase : address.symbolic? = some base) (hat : IsAddress base) :
    ∃ v s', readMemory address bits e = (.ok v, e.withSymbolic s') ∧
      LoadsWord V e address a bits v s' := by
  obtain ⟨h8, hpos, hle⟩ := bounds_of_checkAccessWidth hw
  obtain ⟨hty, -⟩ := h.wellFormed.symbolic? hbase
  have hlt := Machine.load_lt e.machine a h8 hle
  obtain ⟨v, s', hread, hv⟩ := readLogBytes_spec e h.cells hty hat
    (bits / 8) (by omega) (by omega)
  have hbits : v.bits = bits := hv.bits.trans h8
  have hknown := Value.known?_of_concrete h.known
  obtain ⟨base', hens, hbase'⟩ := Value.ensureTerm_ok hsym hknown
  obtain rfl : base = base' := Option.some.inj (hbase.symm.trans hbase')
  refine ⟨(v.setConcrete (e.machine.load a bits)).restrict e.machine.active, s', ?_, hv.le, hbits,
    Value.wellFormed_restrict (Value.wellFormed_setConcrete hv.wellFormed _) _, ?_, ?_⟩
  · unfold readMemory
    rw [apply_bind_ok (apply_get e), h.triggered hsym, Bool.not_true, if_neg Bool.false_ne_true,
      apply_check_ok hw,
      apply_check_ok (Value.checkOperand_eq h.known _), hsym,
      Bool.not_true, if_neg Bool.false_ne_true]
    rw [hens]
    dsimp only
    rw [apply_bind_ok hread, apply_bind_ok (apply_get _)]
    have hc : (e.withSymbolic s').machine.active.contains .concrete = true := h.concrete
    rw [if_pos hc, hknown]
    rfl
  · refine Value.only_eq_some.2 ⟨h.concrete, ?_⟩
    show some (Word.truncate v.bits (e.machine.load a bits)) = some (e.machine.load a bits)
    rw [hbits, Word.truncate_of_lt hlt]
  · intro start ρ hsolver hV hd hmirror
    obtain ⟨l, hl, hcells, hbyte⟩ := (hmirror hsym).bytes
    obtain ⟨ρ', hρ', hdesc⟩ := hv.sound hsolver hV ρ _ l (fun a => UInt8.toNat_lt_count _) hl hcells
    refine ⟨ρ', hρ', ?_⟩
    have hword : Word.gather (fun i => MemoryLog.overwritten ρ
        (fun a => (start.getByte a).toNat) l (byteAddress (base.eval ρ) i)) (bits / 8) =
        e.machine.load a bits := by
      rw [Machine.load_eq_gather, hd.symbolic? h.wellFormed.le hbase]
      exact Word.gather_congr fun i _ => hbyte _
    rw [hword] at hdesc
    exact Value.describes_restrict (Value.describes_setConcrete hdesc) _

/-- **A load succeeds** where the width is one of accesses and the address has a term, if one
is asked for, that stands for addresses. -/
theorem readMemory_ok (h : Accessible V e address a) (hw : checkAccessWidth bits = .ok ())
    (hat : e.machine.active.contains .symbolic = true →
      ∀ t, address.symbolic? = some t → IsAddress t) :
    ∃ v s', readMemory address bits e = (.ok v, e.withSymbolic s') ∧
      LoadsWord V e address a bits v s' := by
  cases hsym : e.machine.active.contains .symbolic with
  | false => exact readMemory_bus h hsym hw
  | true =>
    obtain ⟨base, hbase⟩ := Value.symbolic?_isSome (Value.known?_of_concrete h.known)
    exact readMemory_log h hsym hw hbase (hat hsym base hbase)

/-- A width that is none of accesses is refused before anything else. -/
theorem readMemory_width (hw : checkAccessWidth bits = .error (.accessWidth bits)) :
    readMemory address bits e = (.error (.accessWidth bits), e) := by
  unfold readMemory
  rw [apply_bind_ok (apply_get e)]
  cases e.governor.isTriggered with
  | false =>
    have hbus : Machine.readMemory address bits e.machine =
        (.error (.accessWidth bits), e.machine) := by
      unfold Machine.readMemory
      exact apply_check_error hw _ _
    show onMachine (Machine.readMemory address bits) e = _
    unfold onMachine
    rw [hbus]
  | true =>
    rw [Bool.not_true, if_neg Bool.false_ne_true]
    exact apply_check_error hw _ _

/-- A term that does not stand for addresses is refused by the first byte. -/
theorem readMemory_address (h : Accessible V e address a) {base : Term}
    (hsym : e.machine.active.contains .symbolic = true) (hw : checkAccessWidth bits = .ok ())
    (hbase : address.symbolic? = some base) (hat : ¬ IsAddress base) :
    readMemory address bits e = (.error (.readAddressWidth base.width), e) := by
  have hknown := Value.known?_of_concrete h.known
  obtain ⟨base', hens, hbase'⟩ := Value.ensureTerm_ok hsym hknown
  obtain rfl : base = base' := Option.some.inj (hbase.symm.trans hbase')
  have hwidth : base.width ≠ addressBits := fun hw => hat (.inl hw)
  have hfirst : readLogByte base 0 e = (.error (.readAddressWidth base.width), e) := by
    unfold readLogByte
    rw [apply_bind_ok (apply_get e), byteTerm_zero hat]
    unfold symbolically onMachine Machine.symbolically MemoryLog.readByte
    rw [if_pos hwidth]
    rfl
  unfold readMemory
  rw [apply_bind_ok (apply_get e), h.triggered hsym, Bool.not_true, if_neg Bool.false_ne_true,
    apply_check_ok hw,
    apply_check_ok (Value.checkOperand_eq h.known _), hsym,
    Bool.not_true, if_neg Bool.false_ne_true, hens]
  dsimp only
  unfold readLogBytes
  exact apply_bind_error (apply_bind_error hfirst _) _

end Engine
end Lockstep
