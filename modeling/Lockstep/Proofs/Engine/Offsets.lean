/-
# Memory at offsets from one base

An engine that works in every domain and asks the built-in solver about
addresses has an exact little-endian memory at the offsets from any base,
known or not: after stores of numbers a load of bytes that were stored gives
the number that the last of them make, and every domain knows it. Each store
adds cells that hold its bytes at their offsets. If the base has a known
number it also puts the bytes on the bus, at their offsets from this number,
and a load takes its number from there. Only adding an offset to the base can
compute a bound that does not fit.

Key definitions: `Value.IsBase`, `Value.atOffset`, `Value.addFits`, `OffsetStore`, `OffsetStore.array`,
`Engine.Resolves`, `Engine.HoldsAt`, `Engine.storeAt`, `Engine.loadAt`.
Key theorems: `Value.IsBase.binary_add`, `Value.IsBase.known?_atOffset`, `Engine.cellsOf_exact`,
`Engine.readLogBytes_exact`, `Engine.storeAll_holdsAt`, `Engine.readMemory_exact`,
`Engine.loadFits_exact`, `Engine.loadAt_storeAll`.
-/
import Lockstep.Proofs.Engine.Execute
import Lockstep.Proofs.Engine.Staging
import Lockstep.Proofs.Memory.Offsets

namespace Lockstep

/-! ### Addresses at offsets from a base -/

namespace Value

variable {v : Value} {base : Term}

/-- Is the value an address whose term is the given well-typed one? Nothing is asked of its
number and its range. -/
structure IsBase (base : Term) (v : Value) : Prop where
  bits : v.bits = addressBits
  symbolic : v.symbolic = some base
  wellTyped : base.WellTyped
  width : base.width = addressBits

/-- A range that pins no number down does not do so at an offset. -/
theorem singleton?_add_exact {i : Interval} (h : i.singleton? addressBits = none) (n : Nat) :
    (Interval.binary .add addressBits i (.exact addressBits n)).singleton? addressBits = none := by
  have hne : i.lo ≠ i.hi := fun heq => by
    unfold Interval.singleton? at h
    rw [if_pos heq] at h
    cases h
  refine Interval.singleton?_make (by decide) ?_
  show i.lo + (Word.truncate addressBits n : Int) ≠ i.hi + Word.truncate addressBits n
  omega

/-- The address at an offset from a base. -/
def atOffset (base : Term) (v : Value) (n : Nat) : Value where
  bits := addressBits
  concrete := v.known?.map (byteAddress · n)
  interval := v.interval?.map (Interval.binary .add addressBits · (.exact addressBits n))
  symbolic := some (.mkBinary .add addressBits base (.number addressBits n))

@[simp] theorem symbolic_atOffset (base : Term) (v : Value) (n : Nat) :
    (v.atOffset base n).symbolic =
      some (.mkBinary .add addressBits base (.number addressBits n)) := rfl

theorem IsBase.term_atOffset (h : v.IsBase base) (n : Nat) :
    base.AtOffset n (.mkBinary .add addressBits base (.number addressBits n)) := by
  have hadd := (Term.atOffset_zero h.wellTyped.typed_mentions h.width).add n
  rwa [Nat.zero_add] at hadd

/-- **Adding an offset** to a base gives the address at it. -/
theorem IsBase.binary_add (h : v.IsBase base) (n : Nat) :
    binary .all .add v (exact addressBits n) = .ok (v.atOffset base n) := by
  have hwidth : v.bits = (exact addressBits n).bits := h.bits
  have hterm : v.symbolic? = some base := symbolic?_of_symbolic h.symbolic
  have hword (k : Nat) :
      Word.binary .add addressBits k (Word.truncate addressBits n) = byteAddress k n := by
    simp only [Word.binary, byteAddress, Word.truncate, Nat.add_mod_mod]
  have hknown : (do some (Word.binary .add addressBits (← v.known?)
      (Word.truncate addressBits n))) = v.known?.map (byteAddress · n) := by
    cases v.known? with
    | none => rfl
    | some k => exact congrArg some (hword k)
  have hrange : (do some (Interval.binary .add addressBits (← v.interval?)
      (.exact addressBits n))) =
        v.interval?.map (Interval.binary .add addressBits · (.exact addressBits n)) := by
    cases v.interval? <;> rfl
  unfold binary sameWidth
  rw [if_pos hwidth, hterm, h.bits]
  show assemble .all addressBits
    (do some (Word.binary .add addressBits (← v.known?) (Word.truncate addressBits n)))
    (do some (Interval.binary .add addressBits (← v.interval?) (.exact addressBits n))) (some _) = _
  rw [hknown, hrange]
  exact assemble_all (h.term_atOffset n).width

/-- Do the bounds fit that adding an offset to a base computes? -/
def addFits (v : Value) (n : Nat) : Bool :=
  (Checked.binary .all .add v (exact addressBits n)).isSome

theorem near_exact {bits : Nat} (hpos : 0 < bits) (hle : bits ≤ maxBits) (n : Nat) :
    (exact bits n).Near :=
  near_number (number_all hpos hle n)

theorem Near.addFits (h : v.Near) (n : Nat) : v.addFits n = true := by
  unfold Value.addFits
  rw [Checked.binary_eq _ _ h (near_exact (by decide) (by decide) n)]
  rfl

/-- The address at an offset has a known number exactly if the base has one. -/
theorem IsBase.known?_atOffset (h : v.IsBase base) (n : Nat) :
    (v.atOffset base n).known? = v.known?.map (byteAddress · n) := by
  cases hk : v.known? with
  | some k =>
    refine known?_of_concrete ?_
    show v.known?.map (byteAddress · n) = _
    rw [hk]
    rfl
  | none =>
    obtain ⟨-, hrange, hconst⟩ := known?_eq_none hk
    have hinterval : v.interval? = v.interval := by
      rw [interval?, hk, Option.map_none, Option.or_none]
    have hsingle : (v.atOffset base n).interval.bind (·.singleton? addressBits) = none := by
      simp only [atOffset, hinterval, Option.bind_map, Option.bind_eq_none_iff]
      intro i hi
      exact singleton?_add_exact (h.bits ▸ hrange i hi) n
    have hopen : (Term.mkBinary .add addressBits base (.number addressBits n)).const? = none := by
      have hbase := (h.term_atOffset n).const
      rwa [hconst base h.symbolic, Option.isSome_none, Option.isSome_eq_false_iff,
        Option.isNone_iff_eq_none] at hbase
    show (v.known?.map (byteAddress · n)).or
      (((v.atOffset base n).interval.bind (·.singleton? addressBits)).or _) = none
    rw [hk, hsingle]
    exact hopen

end Value

/-! ### Stores at offsets -/

/-- A word that is stored at an offset. -/
structure OffsetStore where
  offset : Nat
  bits : Nat
  number : Nat
  deriving DecidableEq

namespace OffsetStore

/-- The bytes at their wrapping offsets, in order. -/
def bytes (w : OffsetStore) : List (Nat × UInt8) := Bus.writes w.offset (w.bits / 8) w.number

/-- Is a byte stored at the offset? -/
def covers (w : OffsetStore) (n : Nat) : Bool := w.bytes.any (·.1 = n)

/-- The bytes by their offsets, after stores in order. -/
def array (ws : List OffsetStore) : Bus := Bus.empty.setBytes (ws.flatMap (·.bytes))

theorem getByte_array (ws : List OffsetStore) (n : Nat) :
    (array ws).getByte n = newest (ws.flatMap (·.bytes)).reverse n 0 := by
  have hempty : Bus.empty.getByte n = 0 := by
    simp [Bus.getByte, Bus.get?, Bus.empty]
  rw [← hempty, ← Bus.getByte_setBytes, List.reverse_reverse, array]

end OffsetStore

namespace Engine

/-- The address at an offset from a base. -/
def addressAt {σ : Type} (v : Value) (offset : Nat) : EngineM σ Value := do
  let active := (← get).machine.active
  let offset ← Value.number active addressBits offset
  Value.binary active .add v offset

/-- Stores a number at an offset from a base. -/
def storeAt {σ : Type} (v : Value) (w : OffsetStore) : EngineM σ Unit := do
  let address ← addressAt v w.offset
  let data ← Value.number (← get).machine.active w.bits w.number
  writeMemory address data

/-- The word at an offset from a base. -/
def loadAt {σ : Type} [Solver σ] (v : Value) (offset bits : Nat) : EngineM σ Value := do
  let address ← addressAt v offset
  readMemory address bits

/-- After the trigger, do all domains run and do reads ask the built-in solver? -/
structure Resolves (e : Engine Backend) : Prop where
  triggered : e.governor.isTriggered = true
  active : e.machine.active = .all
  pruning : e.config.readPruning = true
  solver : e.machine.symbolic.Normalizes

/-- Are writes at offsets from a base, the newest first, the newest cells of the log, and on the
bus if the base has a known number? -/
structure HoldsAt (v : Value) (base : Term) (writes : List (Nat × UInt8)) (e : Engine Backend) :
    Prop where
  cells : ∃ cells older, e.log.cells = cells ++ older ∧
    List.Forall₂ (Cell.HoldsAt base) cells writes
  bytes : ∀ k, v.known? = some k → ∀ n < Word.count addressBits, (∃ w ∈ writes, w.1 = n) →
    e.machine.getByte (byteAddress k n) = newest writes n 0

variable {v : Value} {base t : Term} {writes : List (Nat × UInt8)} {e : Engine Backend}
  {m n bits : Nat}

theorem holdsAt_nil (v : Value) (base : Term) (e : Engine Backend) : e.HoldsAt v base [] where
  cells := ⟨[], e.log.cells, rfl, .nil⟩
  bytes := by
    rintro k - n - ⟨w, hw, -⟩
    cases hw

/-- Reads change the symbolic state, which leaves what is held. -/
theorem HoldsAt.withSymbolic (h : e.HoldsAt v base writes) (s : Symbolic Backend) :
    (e.withSymbolic s).HoldsAt v base writes := ⟨h.cells, h.bytes⟩

theorem Resolves.withSymbolic (h : e.Resolves) {s : Symbolic Backend} (hs : s.Normalizes) :
    (e.withSymbolic s).Resolves := ⟨h.triggered, h.active, h.pruning, hs⟩

theorem Resolves.addressAt (h : e.Resolves) (hv : v.IsBase base) (offset : Nat) :
    Engine.addressAt v offset e = (.ok (v.atOffset base offset), e) := by
  unfold Engine.addressAt
  rw [apply_get_bind, h.active,
    apply_check_ok (Value.number_all (by decide) (by decide) offset), hv.binary_add]
  rfl

/-! ### Bytes that are stored -/

/-- **The cells of a number** hold its bytes at their offsets. -/
theorem cellsOf_exact (ht : base.AtOffset m t) (hw : checkAccessWidth bits = .ok ()) (n : Nat) :
    ∃ cells, cellsOf .all t (.exact bits n) = .ok cells ∧
      List.Forall₂ (Cell.HoldsAt base) cells (Bus.writes m (bits / 8) n) := by
  obtain ⟨h8, -, hle⟩ := bounds_of_checkAccessWidth hw
  unfold cellsOf Bus.writes
  simp only [List.forall₂_map_right_iff]
  refine mapM_ok fun i hi => ?_
  have hi : i < bits / 8 := List.mem_range.1 hi
  have hoffset : base.AtOffset (m + i) (byteTerm t i) := ht.add i
  have hbyte : (Value.exact bits n).slice .all (8 * i) (8 * i + 8) =
      .ok (.exact 8 (Word.byte n i).toNat) := by
    have hslice := Value.slice_exact (show 8 * i < 8 * i + 8 by omega) (by omega) hle n
    rwa [Nat.add_sub_cancel_left, ← Word.toNat_byte] at hslice
  refine ⟨⟨byteTerm t i, .exact 8 (Word.byte n i).toNat⟩, ?_, ?_⟩
  · rw [hbyte]
    exact cellMake_ok hoffset.width rfl rfl
  · exact ⟨hoffset.truncate, byteAddress_lt m i, rfl⟩

/-- The engine after bytes are put in memory and cells in the log. -/
def holding (e : Engine Backend) (writes : List (Nat × UInt8)) (cells : List Cell) :
    Engine Backend :=
  { e with machine := e.machine.putBytes writes, log := ⟨cells.reverse ++ e.log.cells⟩ }

theorem Resolves.holding (h : e.Resolves) (writes : List (Nat × UInt8)) (cells : List Cell) :
    (e.holding writes cells).Resolves := by
  refine ⟨h.triggered, (e.machine.active_putBytes writes).trans h.active, h.pruning, ?_⟩
  show (e.machine.putBytes writes).symbolic.Normalizes
  rw [Machine.symbolic_putBytes]
  exact h.solver

/-- A store whose address and data have terms puts its cells in the log and its known bytes in
memory. Where these are not known it warns. -/
theorem writeMemory_eq_holding (he : e.Resolves) {address data : Value} {d : Term}
    (ht : address.symbolic = some t) (hd : data.symbolic = some d)
    (hw : checkAccessWidth data.bits = .ok ()) {cells : List Cell}
    (hcells : cellsOf .all t data = .ok cells) :
    ∃ s : Symbolic Backend, s.Normalizes ∧ writeMemory address data e =
      (.ok (), (e.holding (Value.storeWrites .all address data) cells).withSymbolic s) := by
  have hbase := Value.symbolic?_of_symbolic ht
  have haddress := Value.checkOperand_of_symbolic? hbase "address"
  have hdata := Value.checkOperand_of_symbolic? (Value.symbolic?_of_symbolic hd) "data"
  have hterm := Value.ensureTerm_of_symbolic? (DomainSet.contains_all .symbolic) hbase
  have hvalid : data.ensure .all .symbolic = .ok data := by
    have hsome : data.isValid .symbolic = true := Option.isSome_iff_exists.2 ⟨d, hd⟩
    unfold Value.ensure
    rw [hsome]
    rfl
  obtain ⟨k, hk⟩ := he.solver
  obtain ⟨s, hs, hwrite⟩ := writeMemory_eq_putBytes (σ := Backend) he.triggered
    (he.active ▸ DomainSet.contains_all .symbolic) hw haddress hdata (he.active ▸ hterm)
    (he.active ▸ hvalid) (he.active ▸ hcells)
  rw [he.active] at hwrite
  exact ⟨s, ⟨k, hs.trans hk⟩, hwrite⟩

/-- Cells that hold new bytes at their offsets hold them before those that were. If the base has
a known number, the new bytes must go to memory at their offsets from it. -/
theorem HoldsAt.holding (h : e.HoldsAt v base writes) {new stored : List (Nat × UInt8)}
    {cells : List Cell} (hcells : List.Forall₂ (Cell.HoldsAt base) cells new)
    (hlt : ∀ b ∈ new, b.1 < Word.count addressBits)
    (hstored : ∀ k, v.known? = some k → stored = new.map fun b => (byteAddress k b.1, b.2)) :
    (e.holding stored cells).HoldsAt v base (new.reverse ++ writes) where
  cells := by
    obtain ⟨newer, older, hlog, hheld⟩ := h.cells
    refine ⟨cells.reverse ++ newer, older, ?_, List.rel_append (List.rel_reverse hcells) hheld⟩
    show cells.reverse ++ e.log.cells = _
    rw [hlog, List.append_assoc]
  bytes k hk n hn hwritten := by
    have hmoved (b : Nat × UInt8) (hb : b ∈ new.reverse)
        (heq : byteAddress k b.1 = byteAddress k n) : b.1 = n :=
      byteAddress_inj (hlt b (List.mem_reverse.1 hb)) hn heq
    show (e.machine.putBytes stored).getByte (byteAddress k n) = _
    rw [Machine.getByte_putBytes, hstored k hk, ← List.map_reverse, newest_map hmoved,
      newest_append]
    by_cases hold : ∃ b ∈ writes, b.1 = n
    · rw [h.bytes k hk n hn hold]
    · refine newest_of_mem ?_ _ _
      obtain ⟨b, hb, heq⟩ := hwritten
      rcases List.mem_append.1 hb with hb | hb
      · exact ⟨b, hb, heq⟩
      · exact absurd ⟨b, hb, heq⟩ hold

/-- **A store at an offset** succeeds, and its bytes are held before those that were. -/
theorem HoldsAt.store (h : e.HoldsAt v base writes) (he : e.Resolves) (hv : v.IsBase base)
    {w : OffsetStore} (hw : checkAccessWidth w.bits = .ok ()) :
    ∃ e', storeAt v w e = (.ok (), e') ∧ e'.Resolves ∧
      e'.HoldsAt v base (w.bytes.reverse ++ writes) := by
  obtain ⟨-, hpos, hle⟩ := bounds_of_checkAccessWidth hw
  obtain ⟨cells, hcells, hbytes⟩ := cellsOf_exact (hv.term_atOffset w.offset) hw w.number
  have hstored (k : Nat) (hk : v.known? = some k) :
      Value.storeWrites .all (v.atOffset base w.offset) (.exact w.bits w.number) =
        w.bytes.map fun b => (byteAddress k b.1, b.2) := by
    unfold Value.storeWrites
    rw [if_pos (DomainSet.contains_all .concrete), hv.known?_atOffset, hk, Value.known?_exact]
    show Bus.writes (byteAddress k w.offset) (w.bits / 8) (Word.truncate w.bits w.number) = _
    rw [Bus.writes_truncate hle, Bus.writes_byteAddress]
    rfl
  have hdata : (Value.exact w.bits w.number).symbolic = some (.number w.bits w.number) := rfl
  obtain ⟨s, hs, hwrite⟩ :=
    writeMemory_eq_holding he (Value.symbolic_atOffset base v w.offset) hdata hw hcells
  have hheld := h.holding hbytes (fun _ => Bus.lt_of_mem_writes) hstored
  refine ⟨_, ?_, (he.holding _ cells).withSymbolic hs, hheld.withSymbolic s⟩
  unfold storeAt
  rw [apply_bind_ok (he.addressAt hv w.offset), apply_get_bind, he.active,
    apply_check_ok (Value.number_all hpos hle w.number)]
  exact hwrite

/-- **After stores at offsets** all their bytes are held, the last ones first. -/
theorem storeAll_holdsAt (h : e.HoldsAt v base writes) (he : e.Resolves) (hv : v.IsBase base)
    {ws : List OffsetStore} (hws : ∀ w ∈ ws, checkAccessWidth w.bits = .ok ()) :
    ∃ e', ws.forM (storeAt v) e = (.ok (), e') ∧ e'.Resolves ∧
      e'.HoldsAt v base ((ws.flatMap (·.bytes)).reverse ++ writes) := by
  induction ws generalizing e writes with
  | nil => exact ⟨e, rfl, he, h⟩
  | cons w ws ih =>
    obtain ⟨hw, hws⟩ := List.forall_mem_cons.1 hws
    obtain ⟨e₁, hstore, he₁, h₁⟩ := h.store he hv hw
    obtain ⟨e', hall, he', h'⟩ := ih h₁ he₁ hws
    refine ⟨e', ?_, he', ?_⟩
    · show (storeAt v w >>= fun _ => ws.forM (storeAt v)) e = _
      rw [apply_bind_ok hstore, hall]
    · rwa [List.flatMap_cons, List.reverse_append, List.append_assoc]

/-! ### Bytes that are loaded -/

/-- The number that bytes at consecutive offsets make. -/
def wordAt (writes : List (Nat × UInt8)) (m count : Nat) : Nat :=
  Word.gather (fun i => (newest writes (byteAddress m i) 0).toNat) count

theorem wordAt_lt (writes : List (Nat × UInt8)) (m count : Nat) :
    wordAt writes m count < Word.weight (8 * count) :=
  Word.gather_lt fun _ _ => UInt8.toNat_lt_count _

theorem readLogByte_exact (h : e.HoldsAt v base writes) (he : e.Resolves)
    (ht : base.AtOffset m t) {i : Nat} (hwritten : ∃ w ∈ writes, w.1 = byteAddress m i) :
    ∃ s', readLogByte t i e =
        (.ok (.exact 8 (newest writes (byteAddress m i) 0).toNat), e.withSymbolic s') ∧
      s'.Normalizes := by
  obtain ⟨cells, older, hlog, hheld⟩ := h.cells
  have hoffset : base.AtOffset (byteAddress m i) (byteTerm t i) := (ht.add i).truncate
  obtain ⟨s', hread, hs'⟩ := MemoryLog.readByte_atOffset hlog hheld hoffset
    (byteAddress_lt m i) hwritten he.solver
  refine ⟨s', ?_, hs'⟩
  unfold readLogByte
  rw [apply_get_bind, he.pruning]
  simp only [symbolically, onMachine, Machine.symbolically, hread]
  rfl

/-- **The word out of the log** is the one that its bytes make, and every domain knows it. By
induction on the bytes: each is put above those before it. -/
theorem readLogBytes_exact (h : e.HoldsAt v base writes) (he : e.Resolves)
    (ht : base.AtOffset m t) {count : Nat} (hpos : 0 < count) (hmax : 8 * count ≤ maxBits)
    (hwritten : ∀ i < count, ∃ w ∈ writes, w.1 = byteAddress m i) :
    ∃ s', readLogBytes t count e =
        (.ok (.exact (8 * count) (wordAt writes m count)), e.withSymbolic s') ∧
      s'.Normalizes := by
  obtain ⟨n, rfl⟩ : ∃ n, count = n + 1 := ⟨count - 1, by omega⟩
  unfold readLogBytes
  rw [Nat.add_sub_cancel]
  obtain ⟨s₁, hfirst, hs₁⟩ := readLogByte_exact h he ht (hwritten 0 hpos)
  rw [apply_bind_ok hfirst]
  clear hpos
  induction n with
  | zero =>
    refine ⟨s₁, ?_, hs₁⟩
    simp only [wordAt, Word.gather, Nat.zero_add, Nat.mul_zero, Word.weight_eq, Nat.pow_zero,
      Nat.one_mul, Nat.mul_one]
    rfl
  | succ n ih =>
    obtain ⟨s₂, hlo, hs₂⟩ := ih (by omega) fun i hi => hwritten i (by omega)
    obtain ⟨s₃, hbyte, hs₃⟩ := readLogByte_exact (h.withSymbolic s₂) (he.withSymbolic hs₂) ht
      (hwritten (n + 1) (Nat.lt_succ_self _))
    refine ⟨s₃, ?_, hs₃⟩
    have hconcat := Value.concat_exact (m := 8 * (n + 1)) (n := 8) (by omega) (by omega)
      (wordAt writes m (n + 1)) (newest writes (byteAddress m (n + 1)) 0).toNat
    have hword : wordAt writes m (n + 1 + 1) = _ :=
      Word.gather_succ (fun _ _ => UInt8.toNat_lt_count _) (by omega)
    rw [List.range_succ, List.foldlM_append, apply_bind_ok hlo, List.foldlM_cons,
      apply_bind_ok (t := e.withSymbolic s₃)
        (a := .exact (8 * (n + 1 + 1)) (wordAt writes m (n + 1 + 1)))]
    · rfl
    · rw [apply_bind_ok hbyte, apply_get_bind, apply_liftExcept]
      have hactive : ((e.withSymbolic s₂).withSymbolic s₃).machine.active = .all := he.active
      rw [hactive, hconcat, hword]
      rfl

/-- **A load of bytes that are held** gives the word that they make, and every domain knows it. -/
theorem readMemory_exact (h : e.HoldsAt v base writes) (he : e.Resolves) {address : Value}
    (ht : address.symbolic = some t) (hoffset : base.AtOffset m t)
    (hknown : address.known? = v.known?.map (byteAddress · m))
    (hw : checkAccessWidth bits = .ok ())
    (hwritten : ∀ i < bits / 8, ∃ w ∈ writes, w.1 = byteAddress m i) :
    ∃ e', readMemory address bits e = (.ok (.exact bits (wordAt writes m (bits / 8))), e') := by
  obtain ⟨h8, hpos, hle⟩ := bounds_of_checkAccessWidth hw
  have hbase := Value.symbolic?_of_symbolic ht
  have haddress := Value.checkOperand_of_symbolic? hbase "address"
  have hterm := Value.ensureTerm_of_symbolic? (DomainSet.contains_all .symbolic) hbase
  have hcount : 0 < bits / 8 := by omega
  have hmax : 8 * (bits / 8) ≤ maxBits := by omega
  obtain ⟨s', hread, hs'⟩ := readLogBytes_exact h he hoffset hcount hmax hwritten
  rw [h8] at hread
  refine ⟨e.withSymbolic s', ?_⟩
  unfold readMemory
  rw [apply_get_bind, he.triggered, Bool.not_true, if_neg Bool.false_ne_true, apply_check_ok hw,
    apply_check_ok haddress, he.active, DomainSet.contains_all, Bool.not_true,
    if_neg Bool.false_ne_true, hterm]
  dsimp only
  rw [apply_bind_ok hread, apply_get_bind]
  have hactive : (e.withSymbolic s').machine.active = .all := he.active
  rw [hactive, if_pos (DomainSet.contains_all .concrete), hknown]
  cases hk : v.known? with
  | none => rfl
  | some k =>
    have hload : e.machine.load (byteAddress k m) bits = wordAt writes m (bits / 8) := by
      rw [Machine.load_eq_gather]
      refine Word.gather_congr fun i hi => ?_
      rw [← byteAddress_byteAddress, h.bytes k hk _ (byteAddress_lt m i) (hwritten i hi)]
    show (Except.ok (((Value.exact bits _).setConcrete
      (e.machine.load (byteAddress k m) bits)).restrict .all), _) = _
    rw [hload]
    rfl

/-! ### Loads that fit -/

theorem byteFits_exact (h : e.HoldsAt v base writes) (he : e.Resolves)
    (ht : base.AtOffset m t) {i : Nat} (hwritten : ∃ w ∈ writes, w.1 = byteAddress m i) :
    byteFits t i e = true := by
  obtain ⟨cells, older, hlog, hheld⟩ := h.cells
  unfold byteFits
  rw [he.pruning]
  exact MemoryLog.readFits_atOffset hlog hheld (ht.add i).truncate (byteAddress_lt m i) hwritten
    he.solver

/-- Known bytes are put above a range near zero, one by one. -/
theorem bytesFit_exact {is : List Nat} {u : Value} (hu : u.Near) (h : e.HoldsAt v base writes)
    (he : e.Resolves) (ht : base.AtOffset m t)
    (hwritten : ∀ i ∈ is, ∃ w ∈ writes, w.1 = byteAddress m (i + 1)) :
    bytesFit t is u e = true := by
  induction is generalizing u e with
  | nil => rfl
  | cons i is ih =>
    obtain ⟨hi, his⟩ := List.forall_mem_cons.1 hwritten
    refine Bool.and_eq_true_iff.2 ⟨byteFits_exact h he ht hi, ?_⟩
    obtain ⟨s, hbyte, hs⟩ := readLogByte_exact h he ht hi
    have hnear : (Value.exact 8 (newest writes (byteAddress m (i + 1)) 0).toNat).Near :=
      Value.near_exact (by decide) (by decide) _
    unfold andThen
    rw [hbyte]
    dsimp only
    rw [Value.Checked.concat_eq _ hu hnear, Option.isSome_some, Bool.true_and, apply_liftExcept]
    cases hconcat : Value.concat (e.withSymbolic s).machine.active u (Value.exact 8 _) with
    | error fault => rfl
    | ok w => exact ih (Value.near_concat hconcat) (h.withSymbolic s) (he.withSymbolic hs) his

/-- **A load of bytes that are held fits**: each byte is the only one found, and known bytes are
put together. -/
theorem loadFits_exact (h : e.HoldsAt v base writes) (he : e.Resolves) {address : Value}
    (ht : address.symbolic = some t) (hoffset : base.AtOffset m t)
    (hw : checkAccessWidth bits = .ok ())
    (hwritten : ∀ i < bits / 8, ∃ w ∈ writes, w.1 = byteAddress m i) :
    loadFits address bits e = true := by
  obtain ⟨h8, hpos, -⟩ := bounds_of_checkAccessWidth hw
  have hterm := Value.ensureTerm_of_symbolic? (he.active ▸ DomainSet.contains_all .symbolic)
    (Value.symbolic?_of_symbolic ht)
  unfold loadFits
  dsimp only
  split
  · rename_i t' _ hbase
    obtain ⟨-, -, hbase⟩ := bind_eq_ok hbase
    obtain ⟨-, -, hbase⟩ := bind_eq_ok hbase
    obtain rfl : t = t' := Except.ok.inj (hterm.symm.trans hbase)
    have hfirst := hwritten 0 (by omega)
    obtain ⟨s, hbyte, hs⟩ := readLogByte_exact h he hoffset hfirst
    refine Bool.and_eq_true_iff.2 ⟨byteFits_exact h he hoffset hfirst, ?_⟩
    unfold andThen
    rw [hbyte]
    refine bytesFit_exact (Value.near_exact (by decide) (by decide) _) (h.withSymbolic s)
      (he.withSymbolic hs) hoffset fun i hi => hwritten (i + 1) ?_
    have := List.mem_range.1 hi
    omega
  · rfl

/-! ### After the trigger -/

/-- An engine that is triggered with every domain allowed resolves addresses, if its reads ask
the solver and this is the built-in one. -/
theorem trigger_resolves (hidle : e.governor.isTriggered = false)
    (hallowed : e.governor.allowed = .all) (hpruning : e.config.readPruning = true)
    (hsolver : e.machine.symbolic.Normalizes)
    (heip : (e.machine.registers.get .eip).bits = Register.eip.bits) (target : Nat) :
    ∃ e', trigger target e = (.ok (), e') ∧ e'.Resolves := by
  obtain ⟨s, hnote, hs⟩ := note_keeps_solver { e with governor := e.governor.trigger } .info
    fun _ => "triggered at " ++ hexAddress target ++ ", domains " ++ e.governor.allowed.text
  let e₁ := (e.withSymbolic s).under e.governor.allowed e.governor.trigger
  have hnumber : Value.number e₁.machine.active addressBits target =
      .ok (.exact addressBits target) := by
    show Value.number e.governor.allowed addressBits target = _
    rw [hallowed, Value.number_all (by decide) (by decide)]
  refine ⟨e₁.written .eip (.exact addressBits target), ?_, rfl, hallowed, hpruning, ?_⟩
  · unfold trigger
    rw [apply_get_bind, hidle, if_neg Bool.false_ne_true, apply_bind_ok (apply_modify _ e),
      apply_bind_ok hnote]
    exact (apply_bind_ok (apply_modify _ _) _).trans (writeAddress_eq (e := e₁) heip hnumber)
  · obtain ⟨k, hk⟩ := hsolver
    exact ⟨k, hs.trans hk⟩

/-- **Memory at offsets from one base is exact.** On an engine that works in every domain and
asks the built-in solver, let numbers be stored at offsets from an address with a well-typed
term. Adding an offset computes bounds that fit if the range of the address is near zero, or if it
has none. Where they fit, all stores succeed, and a load at an offset, each byte of which was
stored, then computes bounds that fit and succeeds with the little-endian number of the bytes
stored last: as its number, as its range and as a constant. -/
theorem loadAt_storeAll (he : e.Resolves) (hv : v.IsBase base) {ws : List OffsetStore}
    (hws : ∀ w ∈ ws, checkAccessWidth w.bits = .ok ()) :
    ((∀ i, v.interval = some i → i.Near) → ∀ n, v.addFits n = true) ∧
    ((∀ w ∈ ws, v.addFits w.offset = true) →
      ∃ e₁, ws.forM (storeAt v) e = (.ok (), e₁) ∧
        ∀ offset bits, checkAccessWidth bits = .ok () → v.addFits offset = true →
          (∀ i < bits / 8, ∃ w ∈ ws, w.covers (byteAddress offset i) = true) →
          let n := (OffsetStore.array ws).loadBytes offset (bits / 8)
          loadFits (v.atOffset base offset) bits e₁ = true ∧
            ∃ e₂, loadAt v offset bits e₁ =
              (.ok ⟨bits, some n, some ⟨n, n⟩, some (.const bits n)⟩, e₂)) := by
  refine ⟨fun hrange => Value.Near.addFits ⟨hv.bits ▸ (by decide), hrange⟩, fun _ => ?_⟩
  obtain ⟨e₁, hstores, he₁, hheld⟩ := storeAll_holdsAt (holdsAt_nil v base e) he hv hws
  rw [List.append_nil] at hheld
  refine ⟨e₁, hstores, fun offset bits hw _ hwritten => ?_⟩
  obtain ⟨h8, -, hle⟩ := bounds_of_checkAccessWidth hw
  have hbytes (i : Nat) (hi : i < bits / 8) :
      ∃ b ∈ (ws.flatMap (·.bytes)).reverse, b.1 = byteAddress offset i := by
    obtain ⟨w, hw, hcovers⟩ := hwritten i hi
    obtain ⟨b, hb, heq⟩ := List.any_eq_true.1 hcovers
    exact ⟨b, List.mem_reverse.2 (List.mem_flatMap.2 ⟨w, hw, hb⟩), of_decide_eq_true heq⟩
  have harray : (OffsetStore.array ws).loadBytes offset (bits / 8) =
      wordAt (ws.flatMap (·.bytes)).reverse offset (bits / 8) := by
    unfold Bus.loadBytes
    rw [Word.ofBytes_range]
    exact Word.gather_congr fun i _ => congrArg UInt8.toNat (OffsetStore.getByte_array _ _)
  obtain ⟨e₂, hread⟩ :=
    readMemory_exact hheld he₁ rfl (hv.term_atOffset offset) (hv.known?_atOffset offset) hw hbytes
  have hlt := wordAt_lt (ws.flatMap (·.bytes)).reverse offset (bits / 8)
  rw [h8, ← Word.count_of_le hle] at hlt
  refine ⟨loadFits_exact hheld he₁ rfl (hv.term_atOffset offset) hw hbytes, e₂, ?_⟩
  unfold loadAt
  rw [apply_bind_ok (he₁.addressAt hv offset), hread, harray, Value.exact_of_lt hlt]

/-- At offsets from an unknown base a word is stored around the end of the offsets and a byte
over it; a load of three bytes has one of the byte and two of the word. -/
theorem loadAt_storeAll_wrapping :
    let e := (trigger 0 (Engine.start .empty {} (some (builtIn {})))).2
    let base : Term := .binary .and 32 (.var 32 40) (.invert 32 (.var 32 41))
    let v : Value := ⟨32, none, some (.top 32), some base⟩
    let ws : List OffsetStore := [⟨0xffffffff, 32, 0x44332211⟩, ⟨1, 8, 0x99⟩]
    ∃ e₁ e₂, ws.forM (storeAt v) e = (.ok (), e₁) ∧
      loadAt v 0 24 e₁ =
        (.ok ⟨24, some 0x449922, some ⟨0x449922, 0x449922⟩, some (.const 24 0x449922)⟩, e₂) := by
  intro e base v ws
  obtain ⟨e', htrigger, hresolves⟩ := trigger_resolves
    (e := Engine.start .empty {} (some (builtIn {}))) rfl rfl rfl ⟨_, rfl⟩ rfl 0
  have he : e.Resolves := by
    show (trigger 0 _).2.Resolves
    rwa [htrigger]
  have hv : v.IsBase base :=
    ⟨rfl, rfl, ⟨⟨by decide, by decide⟩, ⟨⟨by decide, by decide⟩, rfl⟩, rfl, rfl⟩, rfl⟩
  have hws : ∀ w ∈ ws, checkAccessWidth w.bits = .ok () := by decide
  obtain ⟨hfits, hrun⟩ := loadAt_storeAll he hv hws
  have hrange : ∀ i, v.interval = some i → i.Near := by
    rintro i ⟨⟩
    exact Interval.near_top (by decide)
  obtain ⟨e₁, hstores, hload⟩ := hrun fun w _ => hfits hrange w.offset
  obtain ⟨-, e₂, hread⟩ := hload 0 24 rfl (hfits hrange 0) (by decide +kernel)
  have hn : (OffsetStore.array ws).loadBytes 0 3 = 0x449922 := by decide +kernel
  refine ⟨e₁, e₂, hstores, ?_⟩
  rw [hread, hn]
  rfl

/-- A base whose range has more numbers than 64 bits count: no offset can be added to it. -/
theorem loadAt_storeAll_overflow :
    let base : Term := .var 32 0
    let v : Value := ⟨32, some 64, some ⟨-2 ^ 63, 2 ^ 63 - 2⟩, some base⟩
    v.IsBase base ∧
      (∀ i, v.interval = some i → Interval.long i.lo = true ∧ Interval.long i.hi = true) ∧
      v.addFits 1 = false := by
  intro base v
  refine ⟨⟨rfl, rfl, ⟨by decide, by decide⟩, rfl⟩, ?_, by decide⟩
  rintro i ⟨⟩
  decide

end Engine

end Lockstep
