/-
# A word that goes through memory

A store puts a word in the log as cells of its bytes, and a load of as many
bytes at the same address finds them there, before whatever was in the log, and
puts their terms together again. The term that comes back denotes the word
that was stored, under every assignment, be other addresses told apart or not.
The built-in solver tells the addresses of the bytes apart; then the terms of
the cells are glued to the very term that was stored, unless this is a
concatenation or a slice of one, which are cut at their seams.

Key definitions: `Value.Carries`, `Cell.IsByte`, `Cell.AreBytes`, `Engine.HoldsWord`.
Key theorems: `Value.concat_carries`, `Engine.cellsOf_terms`, `Engine.writeMemory_holdsWord`,
`Engine.readLogBytes_carries`, `Engine.HoldsWord.readLogBytes_denotes`,
`Engine.HoldsWord.readLogBytes_slice`, `Engine.readMemory_writeMemory`.
-/
import Lockstep.Proofs.Engine.Offsets
import Lockstep.Proofs.Term.Built

namespace Lockstep

/-! ### Values that carry terms -/

namespace Value

variable {active : DomainSet} {m n : Nat} {P Q R : Term → Prop} {v : Value} {t : Term}

/-- A value of the given width with a term of this width that has a property. -/
structure Carries (n : Nat) (P : Term → Prop) (v : Value) : Prop where
  bits : v.bits = n
  symbolic : ∃ t, v.symbolic = some t ∧ t.width = n ∧ P t

/-- **A word above another carries both terms.** -/
theorem concat_carries (hs : active.contains .symbolic = true) {lo hi : Value}
    (hlo : lo.Carries m P) (hhi : hi.Carries n Q) (hpos : 0 < m + n) (hmax : m + n ≤ maxBits)
    (hglue : ∀ a b, a.width = m → b.width = n → P a → Q b →
      (Term.mkConcat a m b n).width = m + n ∧ R (.mkConcat a m b n)) :
    ∃ v, concat active lo hi = .ok v ∧ v.Carries (m + n) R := by
  obtain ⟨rfl, a, ha, haw, hP⟩ := hlo
  obtain ⟨rfl, b, hb, hbw, hQ⟩ := hhi
  obtain ⟨hw, hR⟩ := hglue a b haw hbw hP hQ
  let known : Option Nat := do some (Word.concat (← lo.known?) lo.bits (← hi.known?) hi.bits)
  let range : Option Interval :=
    do some (Interval.concat (← lo.interval?) lo.bits (← hi.interval?) hi.bits)
  refine ⟨{ bits := lo.bits + hi.bits, concrete := active.only .concrete known,
            interval := active.only .interval range,
            symbolic := some (.mkConcat a lo.bits b hi.bits) }, ?_, rfl, _, rfl, hw, hR⟩
  have hterm : (do some (Term.mkConcat (← lo.symbolic?) lo.bits (← hi.symbolic?) hi.bits)) =
      some (Term.mkConcat a lo.bits b hi.bits) := by
    rw [symbolic?_of_symbolic ha, symbolic?_of_symbolic hb]
    rfl
  unfold concat
  rw [checkWidth_eq hpos hmax, hterm]
  show assemble active (lo.bits + hi.bits) known range (some _) = _
  unfold assemble
  rw [only_eq_some.2 ⟨hs, rfl⟩]
  exact setSymbolic_eq hw

end Value

/-! ### The cells of a word -/

/-- The cell of the byte of a word at a place, with the slice of the term of the word. -/
structure Cell.IsByte (V : Widths) (base t : Term) (c : Cell) (i : Nat) : Prop where
  address : c.address = Engine.byteTerm base i
  wellFormed : c.WellFormed V
  symbolic : c.value.symbolic? = some (.mkSlice t.width t (8 * i) (8 * i + 8))

/-- Cells that are bytes of a word, some cell for each. -/
structure Cell.AreBytes (V : Widths) (base t : Term) (count : Nat) (cells : List Cell) : Prop where
  bytes : ∀ c ∈ cells, ∃ i < count, c.IsByte V base t i
  all : ∀ i < count, ∃ c ∈ cells, c.IsByte V base t i

theorem exists_of_forall₂ {α β : Type} {R : α → β → Prop} {xs : List α} {ys : List β}
    (h : List.Forall₂ R xs ys) : (∀ x ∈ xs, ∃ y ∈ ys, R x y) ∧ ∀ y ∈ ys, ∃ x ∈ xs, R x y := by
  induction h with
  | nil => exact ⟨nofun, nofun⟩
  | @cons x y xs ys hxy _ ih =>
    obtain ⟨hxs, hys⟩ := ih
    refine ⟨List.forall_mem_cons.2 ⟨⟨y, List.mem_cons_self, hxy⟩, fun x' hx' => ?_⟩,
      List.forall_mem_cons.2 ⟨⟨x, List.mem_cons_self, hxy⟩, fun y' hy' => ?_⟩⟩
    · obtain ⟨y', hy', hR⟩ := hxs x' hx'
      exact ⟨y', List.mem_cons_of_mem _ hy', hR⟩
    · obtain ⟨x', hx', hR⟩ := hys y' hy'
      exact ⟨x', List.mem_cons_of_mem _ hx', hR⟩

theorem Cell.AreBytes.reverse {V : Widths} {base t : Term} {count : Nat} {cells : List Cell}
    (h : AreBytes V base t count cells) : AreBytes V base t count cells.reverse where
  bytes c hc := h.bytes c (List.mem_reverse.1 hc)
  all i hi := by
    obtain ⟨c, hc, hbyte⟩ := h.all i hi
    exact ⟨c, List.mem_reverse.2 hc, hbyte⟩

theorem Cell.IsByte.place {V : Widths} {base t : Term} {c : Cell} {i j count : Nat}
    (h : c.IsByte V base t j) (hbase : base.Typed V) (hwidth : base.width = addressBits)
    (hi : i < count) (hj : j < count) (hcount : 8 * count ≤ maxBits) {ρ : Assignment}
    (haddress : c.address.eval ρ = byteAddress (base.eval ρ) i) : j = i := by
  have hplaces : 4 < Word.count addressBits := by decide
  have hmax : maxBits = 32 := rfl
  rw [h.address, (Engine.denotes_byteTerm hbase (.inl hwidth) j).eval] at haddress
  exact byteAddress_inj (by omega) (by omega) haddress

namespace Engine

variable {σ : Type} {V : Widths} {e : Engine σ} {base t : Term} {address data : Value}
  {count : Nat}

/-- **The cells of a word** have the slices of its term. -/
theorem cellsOf_terms {active : DomainSet} (hs : active.contains .symbolic = true)
    (hbase : base.Typed V) (hwidth : base.width = addressBits) (hdata : data.WellFormed V)
    (ht : data.symbolic = some t) (h8 : 8 * (data.bits / 8) = data.bits) :
    ∃ cells, cellsOf active base data = .ok cells ∧
      Cell.AreBytes V base t (data.bits / 8) cells := by
  have htw : t.width = data.bits := (hdata.symbolic t ht).2
  suffices hcell : ∀ i ∈ List.range (data.bits / 8), ∃ c,
      (do Cell.make (byteTerm base i) (← data.slice active (8 * i) (8 * i + 8))) = .ok c ∧
        c.IsByte V base t i by
    obtain ⟨cells, hcells, hbytes⟩ := mapM_ok hcell
    obtain ⟨heach, hall⟩ := exists_of_forall₂ hbytes
    refine ⟨cells, hcells, fun c hc => ?_, fun i hi => hall i (List.mem_range.2 hi)⟩
    obtain ⟨i, hi, hbyte⟩ := heach c hc
    exact ⟨i, List.mem_range.1 hi, hbyte⟩
  intro i hi
  have hi : i < data.bits / 8 := List.mem_range.1 hi
  have hden := denotes_byteTerm hbase (.inl hwidth) i
  obtain ⟨v, hv, hshape, -⟩ := Value.slice_ok active hdata
    (show 8 * i < 8 * i + 8 by omega) (by omega)
  have hbits : v.bits = 8 := hshape.bits.trans (by omega)
  have hterm : v.symbolic = some (.mkSlice t.width t (8 * i) (8 * i + 8)) := by
    have hassembled := hv
    unfold Value.slice at hassembled
    rw [if_neg (by omega), Value.symbolic?_of_symbolic ht] at hassembled
    rw [Value.eq_of_assemble active hassembled, htw]
    exact Value.only_eq_some.2 ⟨hs, rfl⟩
  refine ⟨⟨byteTerm base i, v⟩, ?_, rfl, ⟨hden.typed, hden.width, hshape.wellFormed, hbits⟩,
    Value.symbolic?_of_symbolic hterm⟩
  rw [hv]
  exact cellMake_ok hden.width hbits
    (Value.checkOperand_of_symbolic? (Value.symbolic?_of_symbolic hterm) _)

/-! ### Stores -/

/-- What a store leaves: the log with new cells, the newest last in the list, and as they were
the settings, the phase, the active domains and the solver. -/
structure Logged (cells : List Cell) (e e' : Engine σ) : Prop where
  cells : e'.log.cells = cells.reverse ++ e.log.cells
  config : e'.config = e.config
  governor : e'.governor = e.governor
  active : e'.machine.active = e.machine.active
  solver : e'.machine.symbolic.solver = e.machine.symbolic.solver

/-- A store puts the cells of its word in the log, whether or not it goes to the bus too. -/
theorem writeMemory_logged (htrig : e.governor.isTriggered = true)
    (hs : e.machine.active.contains .symbolic = true) (hw : checkAccessWidth data.bits = .ok ())
    (hbase : address.symbolic? = some base) (ht : data.symbolic? = some t)
    (htw : t.width = data.bits) {cells : List Cell}
    (hcells : cellsOf e.machine.active base { data with symbolic := some t } = .ok cells) :
    ∃ e', writeMemory address data e = (.ok (), e') ∧ e.Logged cells e' := by
  obtain ⟨s, hsolver, hwrite⟩ := writeMemory_eq_putBytes htrig hs hw
    (Value.checkOperand_of_symbolic? hbase "address") (Value.checkOperand_of_symbolic? ht "data")
    (Value.ensureTerm_of_symbolic? hs hbase) (Value.ensure_of_symbolic? hs ht htw) hcells
  exact ⟨_, hwrite, rfl, rfl, rfl, Machine.active_putBytes _ _, hsolver⟩

/-- The newest cells of the log are the bytes of a word at a base, as many as it has. -/
structure HoldsWord (V : Widths) (base t : Term) (count : Nat) (e : Engine σ) : Prop where
  typedBase : base.Typed V
  widthBase : base.width = addressBits
  typed : t.Typed V
  width : 8 * count = t.width
  cells : ∃ cells older, e.log.cells = cells ++ older ∧ Cell.AreBytes V base t count cells

theorem HoldsWord.le (h : e.HoldsWord V base t count) : 8 * count ≤ maxBits :=
  h.width ▸ h.typed.width_le

/-- **A store leaves its word in the log.** -/
theorem writeMemory_holdsWord (htrig : e.governor.isTriggered = true)
    (hs : e.machine.active.contains .symbolic = true) (haddress : address.WellFormed V)
    (hbits : address.bits = addressBits) (hdata : data.WellFormed V)
    (hw : checkAccessWidth data.bits = .ok ()) (hbase : address.symbolic? = some base)
    (ht : data.symbolic? = some t) :
    ∃ cells e', writeMemory address data e = (.ok (), e') ∧ e.Logged cells e' ∧
      e'.HoldsWord V base t (data.bits / 8) := by
  obtain ⟨htbase, hwbase⟩ := haddress.symbolic? hbase
  obtain ⟨htt, htw⟩ := hdata.symbolic? ht
  obtain ⟨h8, -, -⟩ := bounds_of_checkAccessWidth hw
  have hcarried : { data with symbolic := some t }.WellFormed V :=
    ⟨hdata.pos, hdata.le, hdata.concrete, fun u hu => Option.some.inj hu ▸ ⟨htt, htw⟩⟩
  obtain ⟨cells, hcells, hbytes⟩ := cellsOf_terms hs htbase (hwbase.trans hbits) hcarried rfl h8
  obtain ⟨e', hwrite, hlogged⟩ := writeMemory_logged htrig hs hw hbase ht htw hcells
  exact ⟨cells, e', hwrite, hlogged, htbase, hwbase.trans hbits, htt, h8.trans htw.symm,
    cells.reverse, e.log.cells, hlogged.cells, hbytes.reverse⟩

/-! ### Loads -/

variable [Solver σ]

/-- **Bytes are put together.** Each read of a byte gives one with a term of the given kind for
its place, in a state that is fit for the next one, and with a byte above it a term of some kind
for as many bytes becomes one for one more. By induction on the bytes. -/
theorem readLogBytes_carries {I : Nat → Symbolic σ → Prop} {Byte Part : Nat → Term → Prop}
    (hs : e.machine.active.contains .symbolic = true) (hpos : 0 < count)
    (hmax : 8 * count ≤ maxBits)
    (hbyte : ∀ i < count, ∀ s, I i s → ∃ v s', readLogByte base i (e.withSymbolic s) =
      (.ok v, e.withSymbolic s') ∧ I (i + 1) s' ∧ v.Carries 8 (Byte i))
    (hfirst : ∀ b, Byte 0 b → Part 1 b)
    (hnext : ∀ k, 0 < k → k < count → ∀ a b, a.width = 8 * k → b.width = 8 → Part k a →
      Byte k b → (Term.mkConcat a (8 * k) b 8).width = 8 * k + 8 ∧
        Part (k + 1) (.mkConcat a (8 * k) b 8))
    {s : Symbolic σ} (h : I 0 s) :
    ∃ v s', readLogBytes base count (e.withSymbolic s) = (.ok v, e.withSymbolic s') ∧ I count s' ∧
      v.Carries (8 * count) (Part count) := by
  obtain ⟨n, rfl⟩ : ∃ n, count = n + 1 := ⟨count - 1, by omega⟩
  unfold readLogBytes
  rw [Nat.add_sub_cancel]
  obtain ⟨first, s₁, hread, hI, hbits, b, hb, hbw, hB⟩ := hbyte 0 hpos s h
  rw [apply_bind_ok hread]
  clear hpos
  induction n with
  | zero => exact ⟨first, s₁, rfl, hI, hbits, b, hb, hbw, hfirst b hB⟩
  | succ n ih =>
    obtain ⟨lo, s₂, hlo, hI₂, hcarries⟩ := ih (by omega) (fun i hi => hbyte i (by omega))
      fun k hk hlt => hnext k hk (by omega)
    obtain ⟨byte, s₃, hreadByte, hI₃, hcarriesByte⟩ := hbyte (n + 1) (by omega) s₂ hI₂
    obtain ⟨v, hv, hcarriesWord⟩ := Value.concat_carries hs hcarries hcarriesByte (by omega)
      (by omega) (hnext (n + 1) (by omega) (by omega))
    refine ⟨v, s₃, ?_, hI₃, hcarriesWord⟩
    rw [List.range_succ, List.foldlM_append, apply_bind_ok hlo, List.foldlM_cons,
      apply_bind_ok (t := e.withSymbolic s₃) (a := v)]
    · rfl
    · rw [apply_bind_ok hreadByte, apply_bind_ok (apply_get _)]
      exact (apply_liftExcept _ _).trans (by rw [← hv]; rfl)

/-- A load gives the word that its bytes make, with its term. -/
theorem readMemory_carries {P : Term → Prop} {bits : Nat} {v : Value} {s : Symbolic σ}
    (htrig : e.governor.isTriggered = true) (hs : e.machine.active.contains .symbolic = true)
    (hw : checkAccessWidth bits = .ok ()) (hbase : address.symbolic? = some base)
    (hread : readLogBytes base (bits / 8) e = (.ok v, e.withSymbolic s)) (hv : v.Carries bits P) :
    ∃ v', readMemory address bits e = (.ok v', e.withSymbolic s) ∧ v'.Carries bits P := by
  obtain ⟨hbits, u, hu, huw, hP⟩ := hv
  have hrestrict (x : Value) (hb : x.bits = bits) (hx : x.symbolic = some u) :
      (x.restrict e.machine.active).Carries bits P :=
    ⟨hb, u, Value.only_eq_some.2 ⟨hs, hx⟩, huw, hP⟩
  unfold readMemory
  rw [apply_get_bind, htrig, Bool.not_true, if_neg Bool.false_ne_true, apply_check_ok hw,
    apply_check_ok (Value.checkOperand_of_symbolic? hbase _), hs, Bool.not_true,
    if_neg Bool.false_ne_true, Value.ensureTerm_of_symbolic? hs hbase]
  dsimp only
  rw [apply_bind_ok hread, apply_get_bind]
  by_cases hc : e.machine.active.contains .concrete = true
  · cases address.known? with
    | none =>
      rw [if_pos (show (e.withSymbolic s).machine.active.contains .concrete = true from hc)]
      exact ⟨_, rfl, hrestrict v hbits hu⟩
    | some a =>
      rw [if_pos (show (e.withSymbolic s).machine.active.contains .concrete = true from hc)]
      exact ⟨_, rfl, hrestrict (v.setConcrete _) hbits hu⟩
  · rw [if_neg (show ¬ (e.withSymbolic s).machine.active.contains .concrete = true from hc)]
    exact ⟨_, rfl, hrestrict v hbits hu⟩

/-! ### Bytes of a stored word -/

/-- The terms that denote a byte of a word, under every assignment. -/
def DenotesByte (t : Term) (i : Nat) (b : Term) : Prop :=
  b.Denotes (fun _ _ => True) 8 fun ρ => Word.slice (t.eval ρ) (8 * i) (8 * i + 8)

/-- The terms that denote as many low bytes of a word as given, under every assignment. -/
def DenotesLow (t : Term) (count : Nat) (u : Term) : Prop :=
  u.Denotes (fun _ _ => True) (8 * count) fun ρ => Word.slice (t.eval ρ) 0 (8 * count)

theorem readLogByte_of_readByte {i : Nat} {v : Value} {s s' : Symbolic σ}
    (h : e.log.readByte (byteTerm base i) e.config.readPruning s = (.ok v, s')) :
    readLogByte base i (e.withSymbolic s) = (.ok v, e.withSymbolic s') := by
  show symbolically (e.log.readByte (byteTerm base i) e.config.readPruning) (e.withSymbolic s) = _
  simp only [symbolically, onMachine, Machine.symbolically, withSymbolic, h]

/-- **A byte of a stored word is read**, whatever the solver decides: its term denotes the byte
under every assignment, as no other cell of the word is at its address. -/
theorem HoldsWord.readLogByte_denotes (h : e.HoldsWord V base t count)
    (hsolver : Solver.RightOver σ V) {i : Nat} (hi : i < count) (s : Symbolic σ) :
    ∃ v s', readLogByte base i (e.withSymbolic s) = (.ok v, e.withSymbolic s') ∧
      v.Carries 8 (DenotesByte t i) := by
  have hle := h.le
  obtain ⟨hbase, hwidth, ht, h8, cells, older, hlog, hcells⟩ := h
  have hden := denotes_byteTerm hbase (.inl hwidth) i
  obtain ⟨c, hc, hbyte⟩ := hcells.all i hi
  have hterms : ∀ c ∈ cells, c.WellFormed V ∧ c.HasTerm := fun c hc => by
    obtain ⟨j, -, hj⟩ := hcells.bytes c hc
    exact ⟨hj.wellFormed, Option.isSome_iff_exists.2 ⟨_, hj.symbolic⟩⟩
  have hscan : MemoryLog.scan (byteTerm base i) e.config.readPruning e.log.cells s =
      MemoryLog.scan (byteTerm base i) e.config.readPruning cells s := by
    rw [hlog]
    exact MemoryLog.scan_append_of_mem ⟨c, hc, hbyte.address⟩ older _ s
  obtain ⟨b, s', hread, hb⟩ := MemoryLog.readByte_terms hsolver hterms hden.typed hden.width
    e.config.readPruning hscan
  refine ⟨_, s', readLogByte_of_readByte hread, MemoryLog.bits_known _ _, b, rfl, hb.width,
    (hb.congr fun ρ => ?_).mono fun _ _ _ => trivial⟩
  refine MemoryLog.overwritten_of_forall ⟨(c, c.byteUnder ρ), List.mem_map_of_mem hc, ?_⟩ ?_
  · rw [hbyte.address]
  · intro p hp haddress
    obtain ⟨d, hd, rfl⟩ := List.mem_map.1 hp
    obtain ⟨j, hj, hplace⟩ := hcells.bytes d hd
    obtain rfl := hplace.place hbase hwidth hi hj (by omega) (haddress.trans (hden.eval ρ))
    have hslice := Term.denotes_mkSlice (.of_typed ht) (show 8 * j < 8 * j + 8 by omega)
      (by omega)
    exact (Cell.byteUnder_of_some hplace.symbolic ρ).trans (hslice.eval ρ)

/-- **The built-in solver finds the byte itself**, and with it the slice of the term. -/
theorem HoldsWord.readLogByte_slice {e : Engine Backend} (h : e.HoldsWord V base t count)
    (hprune : e.config.readPruning = true) {i : Nat} (hi : i < count) {s : Symbolic Backend}
    (hs : s.Normalizes) :
    ∃ v s', readLogByte base i (e.withSymbolic s) = (.ok v, e.withSymbolic s') ∧
      s'.Normalizes ∧ v.Carries 8 (· = .mkSlice t.width t (8 * i) (8 * i + 8)) := by
  have hplaces : 4 < Word.count addressBits := by decide
  have hmax : maxBits = 32 := rfl
  have hle := h.le
  obtain ⟨hbase, hwidth, ht, h8, cells, older, hlog, hcells⟩ := h
  have hoffset (j : Nat) : base.AtOffset j (byteTerm base j) := by
    have hadd := (Term.atOffset_zero hbase hwidth).add j
    rwa [Nat.zero_add] at hadd
  obtain ⟨c, hc, hbyte⟩ := hcells.all i hi
  have hothers : ∀ d ∈ cells, d.address = byteTerm base i ∨ ∃ j, base.AtOffset j d.address ∧
      Word.truncate addressBits i ≠ Word.truncate addressBits j := by
    intro d hd
    obtain ⟨j, hj, hplace⟩ := hcells.bytes d hd
    by_cases hij : i = j
    · exact .inl (hij ▸ hplace.address)
    · refine .inr ⟨j, hplace.address ▸ hoffset j, ?_⟩
      rwa [Word.truncate_of_lt (by omega), Word.truncate_of_lt (by omega)]
  obtain ⟨d, s₁, hd, hda, hscan, k, hk⟩ :=
    MemoryLog.scan_first hothers ⟨c, hc, hbyte.address⟩ (hoffset i) hs
  obtain ⟨j, hj, hplace⟩ := hcells.bytes d hd
  have haddress (ρ : Assignment) : d.address.eval ρ = byteAddress (base.eval ρ) i := by
    rw [hda]
    exact (denotes_byteTerm hbase (.inl hwidth) i).eval ρ
  obtain rfl := hplace.place hbase hwidth hi hj (by omega) (haddress fun _ => 0)
  have hslice := Term.denotes_mkSlice (.of_typed ht) (show 8 * j < 8 * j + 8 by omega) (by omega)
  have hbits : (Term.mkSlice t.width t (8 * j) (8 * j + 8)).width = 8 :=
    hslice.width.trans (by omega)
  rw [← hlog, ← hprune] at hscan
  obtain ⟨s', hread, hsolver⟩ :=
    MemoryLog.readByte_of_base (hoffset j).width hscan hplace.symbolic hbits
  exact ⟨_, s', readLogByte_of_readByte hread, ⟨k, hsolver.trans hk⟩, MemoryLog.bits_known _ _, _,
    rfl, hbits, rfl⟩

/-! ### Round trips -/

theorem DenotesLow.concat {k : Nat} {a b : Term} (ha : DenotesLow t k a) (hb : DenotesByte t k b)
    (hmax : 8 * k + 8 ≤ maxBits) : (Term.mkConcat a (8 * k) b 8).width = 8 * k + 8 ∧
      DenotesLow t (k + 1) (.mkConcat a (8 * k) b 8) := by
  have hden := Term.denotes_mkConcat ha hb hmax
  refine ⟨hden.width, hden.congr fun ρ => ?_⟩
  have hglue := Word.concat_slices (t.eval ρ) 0 hmax
  rwa [Nat.zero_add, Nat.zero_add] at hglue

/-- The bytes of a word are put together to a term that denotes it, whatever the solver decides. -/
theorem HoldsWord.readLogBytes_denotes (h : e.HoldsWord V base t count)
    (hs : e.machine.active.contains .symbolic = true) (hsolver : Solver.RightOver σ V)
    (hpos : 0 < count) :
    ∃ v s, readLogBytes base count e = (.ok v, e.withSymbolic s) ∧
      v.Carries (8 * count) fun u => ∀ ρ, u.eval ρ = t.eval ρ := by
  have hle := h.le
  have hbyte (i : Nat) (hi : i < count) (s : Symbolic σ) (_ : True) :
      ∃ v s', readLogByte base i (e.withSymbolic s) = (.ok v, e.withSymbolic s') ∧ True ∧
        v.Carries 8 (DenotesByte t i) := by
    obtain ⟨v, s', hread, hv⟩ := h.readLogByte_denotes hsolver hi s
    exact ⟨v, s', hread, trivial, hv⟩
  obtain ⟨v, s, hread, -, hbits, u, hu, huw, hlow⟩ :=
    readLogBytes_carries (s := e.machine.symbolic) hs hpos hle hbyte
      (fun b hb => show DenotesLow t 1 b from hb)
      (fun k _ hk _ _ _ _ ha hb => ha.concat hb (by omega)) trivial
  refine ⟨v, s, hread, hbits, u, hu, huw, fun ρ => ?_⟩
  rw [hlow.eval, h.width, Word.slice_all (h.typed.eval_lt ρ)]

/-- With the built-in solver the slices of a word without a seam are glued to its term. -/
theorem HoldsWord.readLogBytes_slice {e : Engine Backend} (h : e.HoldsWord V base t count)
    (hs : e.machine.active.contains .symbolic = true) (hsolver : e.machine.symbolic.Normalizes)
    (hprune : e.config.readPruning = true) (hpos : 0 < count) (hseam : t.Seamless) :
    ∃ v s, readLogBytes base count e = (.ok v, e.withSymbolic s) ∧
      v.Carries (8 * count) (· = t) := by
  have hle := h.width.le
  have hnext (k : Nat) (h0 : 0 < k) (hk : k < count) (a b : Term) (_ : a.width = 8 * k)
      (_ : b.width = 8) (ha : a = .mkSlice t.width t 0 (8 * k))
      (hb : b = .mkSlice t.width t (8 * k) (8 * k + 8)) :
      (Term.mkConcat a (8 * k) b 8).width = 8 * k + 8 ∧
        Term.mkConcat a (8 * k) b 8 = .mkSlice t.width t 0 (8 * (k + 1)) := by
    have hspan : Term.mkConcat a (8 * k) b 8 = .mkSlice t.width t 0 (8 * k + 8) := by
      have hglue := hseam.glue (show 0 < 8 * k by omega) (show 8 * k < 8 * k + 8 by omega)
        (by omega)
      rwa [Nat.add_sub_cancel_left, ← ha, ← hb] at hglue
    have hden := Term.denotes_mkSlice (.of_typed h.typed) (show 0 < 8 * k + 8 by omega)
      (by omega)
    exact ⟨hspan ▸ hden.width, hspan⟩
  obtain ⟨v, s, hread, -, hbits, u, hu, huw, hall⟩ :=
    readLogBytes_carries (s := e.machine.symbolic) hs hpos h.le
      (fun i hi s h' => h.readLogByte_slice hprune hi h') (fun _ hb => hb) hnext hsolver
  refine ⟨v, s, hread, hbits, u, hu, huw, ?_⟩
  rw [hall, h.width, hseam.slice_all]

/-- **A word survives memory.** A store at an address with a term of a value with a term
succeeds, and so does a load from there of as many bytes, whatever the log and the bus hold. The
load has a term that denotes the stored one under every assignment, whatever a solver that is
right decides, with or without its help. With the built-in solver's help it has the stored term
itself, if this was built by folding and is no concatenation and no slice of one. -/
theorem readMemory_writeMemory (haddress : address.WellFormed V)
    (hbits : address.bits = addressBits) (hdata : data.WellFormed V)
    (hw : checkAccessWidth data.bits = .ok ()) (hbase : address.symbolic? = some base)
    (ht : data.symbolic? = some t) :
    (∀ {σ : Type} [Solver σ], Solver.RightOver σ V → ∀ e : Engine σ,
      e.governor.isTriggered = true → e.machine.active.contains .symbolic = true →
      ∃ e₁ e₂ v u, writeMemory address data e = (.ok (), e₁) ∧
        readMemory address data.bits e₁ = (.ok v, e₂) ∧ v.symbolic = some u ∧
        ∀ ρ, u.eval ρ = t.eval ρ) ∧
    ∀ e : Engine Backend,
      e.governor.isTriggered = true → e.machine.active.contains .symbolic = true →
      e.machine.symbolic.Normalizes → e.config.readPruning = true → t.Built →
      (∀ w low high, t ≠ .concat w low high) →
      (∀ w v low high lo, t ≠ .slice w (.concat v low high) lo) →
      ∃ e₁ e₂ v, writeMemory address data e = (.ok (), e₁) ∧
        readMemory address data.bits e₁ = (.ok v, e₂) ∧ v.symbolic = some t := by
  obtain ⟨h8, hpos, -⟩ := bounds_of_checkAccessWidth hw
  constructor
  · intro σ _ hsolver e htrig hs
    obtain ⟨_, e₁, hwrite, hlogged, hholds⟩ :=
      writeMemory_holdsWord htrig hs haddress hbits hdata hw hbase ht
    have hs₁ : e₁.machine.active.contains .symbolic = true := hlogged.active ▸ hs
    obtain ⟨v, s, hread, hv⟩ := hholds.readLogBytes_denotes hs₁ hsolver (by omega)
    obtain ⟨v', hload, -, u, hu, -, heval⟩ :=
      readMemory_carries (hlogged.governor ▸ htrig) hs₁ hw hbase hread (h8 ▸ hv)
    exact ⟨e₁, e₁.withSymbolic s, v', u, hwrite, hload, hu, heval⟩
  · intro e htrig hs ⟨k, hk⟩ hprune hbuilt hconcat hslice
    obtain ⟨_, e₁, hwrite, hlogged, hholds⟩ :=
      writeMemory_holdsWord htrig hs haddress hbits hdata hw hbase ht
    have hs₁ : e₁.machine.active.contains .symbolic = true := hlogged.active ▸ hs
    obtain ⟨v, s, hread, hv⟩ := hholds.readLogBytes_slice hs₁ ⟨k, hlogged.solver.trans hk⟩
      (hlogged.config ▸ hprune) (by omega) (hbuilt.seamless hconcat hslice)
    obtain ⟨v', hload, -, u, hu, -, rfl⟩ :=
      readMemory_carries (hlogged.governor ▸ htrig) hs₁ hw hbase hread (h8 ▸ hv)
    exact ⟨e₁, e₁.withSymbolic s, v', hwrite, hload, hu⟩

/-- Sixteen bits out of an unknown word go through memory at an unknown address, with an older
byte at another one: the slice itself comes back, and something equal to it without pruning. -/
theorem readMemory_writeMemory_slice :
    let start := (trigger 0 (Engine.start .empty {} (some (builtIn {})))).2
    let e : Engine Backend := { start with log := ⟨[⟨.var 32 42, .exact 8 7⟩]⟩ }
    let plain : Engine Backend := { e with config := { e.config with readPruning := false } }
    let address : Value := ⟨32, none, some (.top 32), some (.var 32 40)⟩
    let t : Term := .slice 16 (.var 32 41) 4
    let data : Value := ⟨16, none, some (.top 16), some t⟩
    (∃ e₁ e₂ v u, writeMemory address data plain = (.ok (), e₁) ∧
      readMemory address 16 e₁ = (.ok v, e₂) ∧ v.symbolic = some u ∧ ∀ ρ, u.eval ρ = t.eval ρ) ∧
    ∃ e₁ e₂ v, writeMemory address data e = (.ok (), e₁) ∧
      readMemory address 16 e₁ = (.ok v, e₂) ∧ v.symbolic = some t := by
  intro start e plain address t data
  obtain ⟨start', htrigger, hresolves⟩ := trigger_resolves
    (e := Engine.start .empty {} (some (builtIn {}))) rfl rfl rfl ⟨_, rfl⟩ rfl 0
  have hstart : start.Resolves := by
    show (trigger 0 _).2.Resolves
    rwa [htrigger]
  have hactive : start.machine.active.contains .symbolic = true := by
    rw [hstart.active]
    rfl
  have hV : Widths.Functional fun _ w => w = 32 := by
    rintro id w w' rfl rfl
    rfl
  have hvar (id : Nat) : (Term.var 32 id).Typed fun _ w => w = 32 :=
    Term.typed_var.2 ⟨by decide, by decide, rfl⟩
  have hslice : t.Typed fun _ w => w = 32 :=
    (Term.denotes_mkSlice (.of_typed (hvar 41)) (show 4 < 20 by decide) (by decide)).typed
  have haddress : address.WellFormed fun _ w => w = 32 :=
    ⟨by decide, by decide, nofun, fun u hu => Option.some.inj hu ▸ ⟨hvar 40, rfl⟩⟩
  have hdata : data.WellFormed fun _ w => w = 32 :=
    ⟨by decide, by decide, nofun, fun u hu => Option.some.inj hu ▸ ⟨hslice, rfl⟩⟩
  have hbuilt : t.Built :=
    .slice 32 4 20 (.var 32 41 (by decide) (by decide)) rfl (by decide) (by decide)
  have hseam (w v : Nat) (low high : Term) (lo : Nat) :
      Term.slice 16 (.var 32 41) 4 ≠ .slice w (.concat v low high) lo := nofun
  obtain ⟨hequal, hsame⟩ := readMemory_writeMemory haddress rfl hdata rfl rfl rfl
  exact ⟨hequal (Backend.rightOver hV) plain hstart.triggered hactive,
    hsame e hstart.triggered hactive hstart.solver hstart.pruning hbuilt nofun hseam⟩

end Engine
end Lockstep
