/-
# Stores of the engine

A store of a known word at a known address goes to the bus, or is staged, in
every phase. After the trigger it is also put in the log byte by byte, each
cell holding the write of its byte.

Key theorems: `Engine.cellsOf_ok`, `Engine.writeMemory_ok`, `Engine.writeMemory_width`,
`Engine.writeMemory_address`.
-/
import Lockstep.Proofs.Engine.Load

namespace Lockstep

theorem mapM_ok {ε α β : Type} {f : α → Except ε β} {P : β → α → Prop} {xs : List α}
    (h : ∀ x ∈ xs, ∃ y, f x = .ok y ∧ P y x) :
    ∃ ys, xs.mapM f = .ok ys ∧ List.Forall₂ P ys xs := by
  induction xs with
  | nil => exact ⟨[], rfl, .nil⟩
  | cons x xs ih =>
    obtain ⟨hx, hxs⟩ := List.forall_mem_cons.1 h
    obtain ⟨y, hy, hP⟩ := hx
    obtain ⟨ys, hys, hall⟩ := ih hxs
    refine ⟨y :: ys, ?_, .cons hP hall⟩
    rw [List.mapM_cons, hy, hys]
    rfl

/-- What a mapping of a list gives comes from elements of the list. -/
theorem exists_of_mapM {ε α β : Type} {f : α → Except ε β} {xs : List α} {ys : List β}
    (h : xs.mapM f = .ok ys) : ∀ y ∈ ys, ∃ x ∈ xs, f x = .ok y := by
  induction xs generalizing ys with
  | nil =>
    obtain rfl := Except.ok.inj h
    exact nofun
  | cons x xs ih =>
    rw [List.mapM_cons] at h
    obtain ⟨y, hy, h⟩ := bind_eq_ok h
    obtain ⟨ys', hys, h⟩ := bind_eq_ok h
    obtain rfl := Except.ok.inj h
    refine List.forall_mem_cons.2 ⟨⟨x, List.mem_cons_self, hy⟩, fun z hz => ?_⟩
    obtain ⟨x', hx', hz⟩ := ih hys z hz
    exact ⟨x', List.mem_cons_of_mem x hx', hz⟩

theorem MemoryLog.foldl_write (cells : List Cell) (log : MemoryLog) :
    cells.foldl MemoryLog.write log = ⟨cells.reverse ++ log.cells⟩ := by
  induction cells generalizing log with
  | nil => rfl
  | cons c cells ih =>
    rw [List.foldl_cons, ih, List.reverse_cons, List.append_assoc]
    rfl

namespace Machine

variable {σ : Type} {m : Machine σ} {address data : Value} {a n : Nat}

theorem writeMemory_eq (hc : m.active.contains .concrete = true)
    (hw : checkAccessWidth data.bits = .ok ()) (ha : address.concrete = some a)
    (hn : data.concrete = some n) :
    writeMemory address data m = (.ok (), m.store a data.bits n) := by
  unfold writeMemory
  rw [apply_check_ok hw,
    apply_check_ok (Value.checkOperand_eq ha _),
    apply_check_ok (Value.checkOperand_eq hn _),
    apply_bind_ok (apply_get m), hc, if_pos rfl, Value.known?_of_concrete ha,
    Value.known?_of_concrete hn]
  rfl

theorem store_setActive (m : Machine σ) (d : DomainSet) (address bits n : Nat) :
    { ({ m with active := d } : Machine σ).store address bits n with active := m.active } =
      m.store address bits n := by
  unfold store
  cases m.staged <;> rfl

/-- A store in the concrete domain alone leaves the active domains. -/
theorem withActive_writeMemory (hw : checkAccessWidth data.bits = .ok ())
    (ha : address.concrete = some a) (hn : data.concrete = some n) :
    withActive .concreteOnly (writeMemory address data) m =
      (.ok (), m.store a data.bits n) := by
  have hstore := writeMemory_eq (m := { m with active := .concreteOnly }) rfl hw ha hn
  unfold withActive
  simp only [Activation.setActive, Activation.active, hstore]
  rw [store_setActive]

end Machine

namespace Engine

variable {σ : Type} {V : Widths} {e : Engine σ} {address data : Value} {base : Term} {a n : Nat}

/-! ### Cells -/

/-- An address and a byte of which something is known make a cell. -/
theorem cellMake_ok (hwidth : base.width = addressBits) (hbits : data.bits = 8)
    (hknown : data.checkOperand "memory cell" = .ok ()) :
    Cell.make base data = .ok ⟨base, data⟩ := by
  unfold Cell.make
  rw [if_neg (not_not_intro hwidth), if_neg (not_not_intro hbits), hknown]
  rfl

/-- **The cells of a word hold the writes of its bytes.** -/
theorem cellsOf_ok {active : DomainSet} (hc : active.contains .concrete = true)
    (hbase : base.Typed V) (hat : IsAddress base) (hdata : data.WellFormed V)
    (hn : data.concrete = some n) (h8 : 8 * (data.bits / 8) = data.bits) :
    ∃ cells, cellsOf active base data = .ok cells ∧ (∀ c ∈ cells, c.WellFormed V) ∧
      ∀ ρ, base.eval ρ = a → data.Describes ρ n →
        List.Forall₂ (Cell.Holds ρ) cells (Bus.writes a (data.bits / 8) n) := by
  have hcell : ∀ i ∈ List.range (data.bits / 8), ∃ c,
      (do Cell.make (byteTerm base i) (← data.slice active (8 * i) (8 * i + 8))) = .ok c ∧
        c.WellFormed V ∧ ∀ ρ, base.eval ρ = a → data.Describes ρ n →
          c.Holds ρ (byteAddress a i, Word.byte n i) := by
    intro i hi
    have hi : i < data.bits / 8 := List.mem_range.1 hi
    have hden := denotes_byteTerm hbase hat i
    obtain ⟨v, hv, hshape, hdesc⟩ := Value.slice_ok active hdata
      (show 8 * i < 8 * i + 8 by omega) (by omega)
    have hbits : v.bits = 8 := hshape.bits.trans (by omega)
    have hsome : v.concrete = some (Word.slice n (8 * i) (8 * i + 8)) := by
      rw [hshape.concrete, Value.known?_of_concrete hn]
      exact Value.only_eq_some.2 ⟨hc, rfl⟩
    refine ⟨⟨byteTerm base i, v⟩, ?_, ⟨hden.typed, hden.width, hshape.wellFormed, hbits⟩, ?_⟩
    · rw [hv]
      exact cellMake_ok hden.width hbits (Value.checkOperand_eq hsome _)
    · intro ρ ha hd
      refine ⟨?_, ?_⟩
      · rw [hden.eval, ha]
      · rw [Word.toNat_byte]
        exact hdesc ρ n hd
  obtain ⟨cells, hcells, hall⟩ := mapM_ok (P := fun (c : Cell) i => c.WellFormed V ∧ ∀ ρ,
    base.eval ρ = a → data.Describes ρ n → c.Holds ρ (byteAddress a i, Word.byte n i)) hcell
  obtain ⟨hwf, hholds⟩ := (List.forall₂_and_left _ _).1 hall
  refine ⟨cells, hcells, hwf, fun ρ ha hd => ?_⟩
  rw [Bus.writes, List.forall₂_map_right_iff]
  exact hholds.imp fun c i h => h ρ ha hd

/-- A term that does not stand for addresses is refused with the first cell. -/
theorem cellsOf_error (active : DomainSet) (hat : ¬ IsAddress base) (hdata : data.WellFormed V)
    (h8 : 8 * (data.bits / 8) = data.bits) :
    cellsOf active base data = .error (.cellAddressWidth base.width) := by
  have hpos := hdata.pos
  obtain ⟨k, hk⟩ : ∃ k, data.bits / 8 = k + 1 := ⟨data.bits / 8 - 1, by omega⟩
  obtain ⟨v, hv, -⟩ := Value.slice_ok active hdata
    (show 8 * 0 < 8 * 0 + 8 by omega) (by omega)
  have hwidth : base.width ≠ addressBits := fun hw => hat (.inl hw)
  have hmake : Cell.make (byteTerm base 0) v = .error (.cellAddressWidth base.width) := by
    unfold Cell.make
    rw [byteTerm_zero hat, if_pos hwidth]
    rfl
  unfold cellsOf
  rw [hk, List.range_succ_eq_map, List.mapM_cons, hv]
  show (Cell.make (byteTerm base 0) v >>= _) = _
  rw [hmake]
  rfl

/-! ### Stores -/

/-- The engine after a store with the given new cells, the newest first. -/
def stored (e : Engine σ) (a bits n : Nat) (new : List Cell) : Engine σ :=
  { e with machine := e.machine.store a bits n, log := ⟨new ++ e.log.cells⟩ }

theorem storeConcrete_eq (hw : checkAccessWidth data.bits = .ok ())
    (ha : address.concrete = some a) (hn : data.concrete = some n) :
    onMachine (ExceptT.lift
        (withActive .concreteOnly (Machine.writeMemory address data)).run) e =
      (.ok (.ok ()), e.stored a data.bits n []) := by
  have hrun : (withActive .concreteOnly (Machine.writeMemory address data)).run e.machine =
      (.ok (), e.machine.store a data.bits n) := Machine.withActive_writeMemory hw ha hn
  unfold onMachine
  rw [apply_lift, hrun]
  rfl

/-- Without the symbolic domain a store goes to the bus alone. -/
theorem writeMemory_bus (h : Accessible V e address a)
    (hsym : e.machine.active.contains .symbolic = false) (hn : data.concrete = some n)
    (hw : checkAccessWidth data.bits = .ok ()) :
    writeMemory address data e = (.ok (), e.stored a data.bits n []) := by
  unfold writeMemory
  rw [apply_bind_ok (apply_get e)]
  cases e.governor.isTriggered with
  | false =>
    show onMachine (Machine.writeMemory address data) e = _
    unfold onMachine
    rw [Machine.writeMemory_eq h.concrete hw h.known hn]
    rfl
  | true =>
    rw [Bool.not_true, if_neg Bool.false_ne_true,
      apply_check_ok hw,
      apply_check_ok (Value.checkOperand_eq h.known _),
      apply_check_ok (Value.checkOperand_eq hn _),
      h.concrete, if_pos rfl]
    beta_reduce
    rw [apply_bind_ok (storeConcrete_eq hw h.known hn), hsym]
    rfl

/-- With the symbolic domain the cells of the word are put in the log, or refused after the
store on the bus. -/
theorem writeMemory_log (h : Accessible V e address a)
    (hsym : e.machine.active.contains .symbolic = true) {data' : Value}
    (hbase : address.symbolic? = some base)
    (hdata : data.ensure e.machine.active .symbolic = .ok data') (hn : data.concrete = some n)
    (hw : checkAccessWidth data.bits = .ok ()) :
    writeMemory address data e =
      match cellsOf e.machine.active base data' with
      | .ok cells => (.ok (), e.stored a data.bits n cells.reverse)
      | .error f => (.error f, e.stored a data.bits n []) := by
  obtain ⟨base', hens, hbase'⟩ := Value.ensureTerm_ok hsym (Value.known?_of_concrete h.known)
  obtain rfl : base = base' := Option.some.inj (hbase.symm.trans hbase')
  unfold writeMemory
  rw [apply_bind_ok (apply_get e), h.triggered hsym, Bool.not_true, if_neg Bool.false_ne_true,
    apply_check_ok hw,
    apply_check_ok (Value.checkOperand_eq h.known _),
    apply_check_ok (Value.checkOperand_eq hn _),
    h.concrete, if_pos rfl]
  beta_reduce
  rw [apply_bind_ok (storeConcrete_eq hw h.known hn), hsym, if_pos rfl, hens]
  dsimp only
  rw [hdata]
  show ((liftM (cellsOf e.machine.active base data') >>= _ : EngineM σ Unit)) _ = _
  cases hcells : cellsOf e.machine.active base data' with
  | error f => exact apply_check_error rfl _ _
  | ok cells =>
    rw [apply_check_ok rfl, apply_modify, MemoryLog.foldl_write]
    rfl

/-- **A store succeeds** where the width is one of accesses and the address has a term, if one
is asked for, that stands for addresses. Its new cells hold the writes to the bus. -/
theorem writeMemory_ok (h : Accessible V e address a) (hdata : data.WellFormed V)
    (hn : data.concrete = some n) (hw : checkAccessWidth data.bits = .ok ())
    (hat : e.machine.active.contains .symbolic = true →
      ∀ t, address.symbolic? = some t → IsAddress t) :
    ∃ new, writeMemory address data e = (.ok (), e.stored a data.bits n new) ∧
      (∀ c ∈ new, c.WellFormed V) ∧
      (e.machine.active.contains .symbolic = true → ∀ ρ, address.Describes ρ a →
        data.Describes ρ n →
        List.Forall₂ (Cell.Holds ρ) new (Bus.writes a (data.bits / 8) n).reverse) := by
  cases hsym : e.machine.active.contains .symbolic with
  | false => exact ⟨[], writeMemory_bus h hsym hn hw, List.forall_mem_nil _, nofun⟩
  | true =>
    obtain ⟨base, hbase⟩ := Value.symbolic?_isSome (Value.known?_of_concrete h.known)
    obtain ⟨data', hens, hbits, hwf, hconcrete, hdesc⟩ :=
      Value.ensure_symbolic_ok hsym hdata (Value.known?_of_concrete hn)
    obtain ⟨cells, hcells, hcwf, hholds⟩ := cellsOf_ok (a := a) h.concrete
      (h.wellFormed.symbolic? hbase).1 (hat hsym base hbase) hwf (hconcrete.trans hn)
      (by rw [hbits]; exact (bounds_of_checkAccessWidth hw).1)
    refine ⟨cells.reverse, ?_, fun c hc => hcwf c (List.mem_reverse.1 hc), fun _ ρ ha hd => ?_⟩
    · rw [writeMemory_log h hsym hbase hens hn hw, hcells]
    · rw [List.forall₂_reverse_iff, ← hbits]
      exact hholds ρ (ha.symbolic? h.wellFormed.le hbase) (hdesc ρ n hd)

/-- A width that is none of accesses is refused before anything else. -/
theorem writeMemory_width (hw : checkAccessWidth data.bits = .error (.accessWidth data.bits)) :
    writeMemory address data e = (.error (.accessWidth data.bits), e) := by
  unfold writeMemory
  rw [apply_bind_ok (apply_get e)]
  cases e.governor.isTriggered with
  | false =>
    have hbus : Machine.writeMemory address data e.machine =
        (.error (.accessWidth data.bits), e.machine) := by
      unfold Machine.writeMemory
      exact apply_check_error hw _ _
    show onMachine (Machine.writeMemory address data) e = _
    unfold onMachine
    rw [hbus]
  | true =>
    rw [Bool.not_true, if_neg Bool.false_ne_true]
    exact apply_check_error hw _ _

/-- A term that does not stand for addresses is refused with the first cell, after the store
on the bus. -/
theorem writeMemory_address (h : Accessible V e address a)
    (hsym : e.machine.active.contains .symbolic = true) (hdata : data.WellFormed V)
    (hn : data.concrete = some n) (hw : checkAccessWidth data.bits = .ok ())
    (hbase : address.symbolic? = some base) (hat : ¬ IsAddress base) :
    writeMemory address data e =
      (.error (.cellAddressWidth base.width), e.stored a data.bits n []) := by
  obtain ⟨data', hens, hbits, hwf, -⟩ :=
    Value.ensure_symbolic_ok hsym hdata (Value.known?_of_concrete hn)
  have h8 : 8 * (data'.bits / 8) = data'.bits := by
    rw [hbits]
    exact (bounds_of_checkAccessWidth hw).1
  rw [writeMemory_log h hsym hbase hens hn hw, cellsOf_error _ hat hwf h8]

end Engine
end Lockstep
