/-
# The range of a byte that goes through memory

A store cuts its word into bytes, and for a word of one byte this is a slice of
all of its bits. The slice of a range of words has the same bounds, and that of
a range through zero is every word. The cell of the byte is at the very term
that a load from there reads at, so the load stops at it and finds this range,
whatever the solver decides and whatever older cells there are.

Key definitions: `Engine.Topped`.
Key theorems: `Interval.slice_all`, `Engine.topped_writeMemory`, `Engine.Topped.readLogByte`,
`Engine.readMemory_interval`, `Engine.readMemory_writeMemory_range`.
-/
import Lockstep.Proofs.Engine.Logged
import Lockstep.Proofs.Engine.RoundTrip
import Lockstep.Proofs.Interval.Hull

namespace Lockstep

/-- **All bits of a normal range**: a range of words stays, and one through zero becomes every
word. -/
theorem Interval.slice_all {w : Nat} {i : Interval} (hw : w ≤ maxBits) (h : i.Normal w) :
    slice w i 0 w = if 0 ≤ i.lo then i else top w := by
  obtain ⟨hle, hspan, h0, hlt⟩ := h
  have hmax := maxWord_eq hw
  have hmod := modulus_of_le hw
  have hsub : w - 0 = w := rfl
  by_cases hsingle : i.lo = i.hi
  · have hlow : i.lo % modulus w = i.lo := Int.emod_eq_of_lt (by omega) (by omega)
    have hone : i.singleton? w = some i.lo.toNat := by
      rw [singleton?, if_pos hsingle, ← hmod, hlow]
    have hword : Word.truncate w i.lo.toNat = i.lo.toNat := Word.truncate_of_lt (by omega)
    rw [slice, hone, if_pos (show 0 ≤ i.lo by omega)]
    dsimp only
    rw [Nat.shiftRight_zero, hsub, exact, hword]
    ext <;> simp only <;> omega
  · have hnone : i.singleton? w = none := by rw [singleton?, if_neg hsingle]
    rw [slice, hnone]
    dsimp only
    by_cases hlo : 0 ≤ i.lo
    · have hcan : i.isCanonical w = true := by
        simp only [isCanonical, Bool.and_eq_true, decide_eq_true_eq]
        omega
      rw [if_pos hcan, if_pos ⟨rfl, by rw [hsub]; omega⟩, if_pos hlo]
    · have hcan : ¬ i.isCanonical w = true := by
        simp only [isCanonical, Bool.and_eq_true, decide_eq_true_eq]
        omega
      rw [if_neg hcan, if_neg hlo, hsub]

theorem Value.width_of_assemble {active : DomainSet} (hs : active.contains .symbolic = true)
    {bits : Nat} {known : Option Nat} {range : Option Interval} {t : Term} {v : Value}
    (h : assemble active bits known range (some t) = .ok v) : t.width = bits := by
  unfold assemble at h
  rw [only_eq_some.2 ⟨hs, rfl⟩] at h
  dsimp only at h
  unfold setSymbolic at h
  by_cases hwidth : t.width = bits
  · exact hwidth
  · rw [if_neg hwidth] at h
    cases h

namespace Engine

variable {σ : Type} {e e' : Engine σ} {address data : Value} {base t : Term}

/-! ### Stores -/

/-- The first byte of the memory at an address is in the newest cell of the log. -/
structure Topped (base : Term) (byte : Value) (e : Engine σ) : Prop where
  width : (byteTerm base 0).width = addressBits
  cells : ∃ older, e.log.cells = ⟨byteTerm base 0, byte⟩ :: older

/-- A cell that is made is at the address that it is made for. -/
theorem eq_of_cellMake {byte : Value} {c : Cell} (h : Cell.make t byte = .ok c) :
    t.width = addressBits ∧ c = ⟨t, byte⟩ := by
  unfold Cell.make at h
  by_cases hwidth : t.width = addressBits
  · rw [if_neg (not_not_intro hwidth)] at h
    by_cases hbits : byte.bits = 8
    · simp only [hbits, ne_eq, not_true_eq_false, if_false] at h
      obtain ⟨_, -, h⟩ := bind_eq_ok h
      exact ⟨hwidth, (Except.ok.inj h).symm⟩
    · simp only [hbits, ne_eq, not_false_eq_true, if_true] at h
      cases h
  · rw [if_pos hwidth] at h
    cases h

theorem cellsOf_byte {active : DomainSet} {cells : List Cell} (hbits : data.bits = 8)
    (h : cellsOf active base data = .ok cells) :
    ∃ byte, data.slice active 0 8 = .ok byte ∧ (byteTerm base 0).width = addressBits ∧
      cells = [⟨byteTerm base 0, byte⟩] := by
  unfold cellsOf at h
  rw [hbits] at h
  obtain ⟨c, hc, h⟩ := bind_eq_ok h
  obtain rfl := Except.ok.inj h
  obtain ⟨byte, hbyte, hmake⟩ := bind_eq_ok hc
  obtain ⟨hwidth, rfl⟩ := eq_of_cellMake hmake
  exact ⟨byte, hbyte, hwidth, rfl⟩

/-- **A store of a byte that is logged** leaves the byte on top of the log. -/
theorem topped_writeMemory (htrig : e.governor.isTriggered = true)
    (hs : e.machine.active.contains .symbolic = true) (hbits : data.bits = 8)
    (ht : data.symbolic = some t) (hwrite : writeMemory address data e = (.ok (), e'))
    (hlogged : e'.log ≠ e.log) :
    e'.governor = e.governor ∧ e'.machine.active = e.machine.active ∧
      ∃ base byte, address.symbolic? = some base ∧
        data.slice e.machine.active 0 8 = .ok byte ∧ e'.Topped base byte := by
  rcases writeMemory_checks htrig address data with ⟨f, hrefused⟩ | ⟨hw, ha, hd⟩
  · rw [hrefused] at hwrite
    cases hwrite
  obtain ⟨journal, hstore⟩ := writeMemory_eq_storing htrig hw ha hd
  rw [hstore] at hwrite
  cases hlog : e.logged address data with
  | error f =>
    rw [hlog] at hwrite
    cases hwrite
  | ok log =>
    rw [hlog] at hwrite
    obtain ⟨-, rfl⟩ := Prod.mk.inj hwrite
    refine ⟨rfl, active_storing log journal, ?_⟩
    unfold logged at hlog
    rw [if_pos hs] at hlog
    cases hbase : address.symbolic? with
    | none =>
      have hterm : address.ensureTerm e.machine.active =
          .error (.underivable .symbolic address) := by
        rw [Value.ensureTerm, hs, hbase]
        rfl
      rw [hterm] at hlog
      exact absurd (Except.ok.inj hlog).symm hlogged
    | some base =>
      have hword : (data.ensure e.machine.active .symbolic).toOption.getD data = data := by
        have hvalid : data.isValid .symbolic = true := by rw [Value.isValid, ht]; rfl
        rw [Value.ensure, hs, Bool.not_true, if_neg Bool.false_ne_true, if_pos hvalid]
        rfl
      rw [Value.ensureTerm_of_symbolic? hs hbase] at hlog
      dsimp only at hlog
      rw [hword] at hlog
      obtain ⟨cells, hcells, hlog⟩ := bind_eq_ok hlog
      obtain ⟨byte, hbyte, hwidth, rfl⟩ := cellsOf_byte hbits hcells
      obtain rfl := Except.ok.inj hlog
      exact ⟨base, byte, rfl, hbyte, hwidth, e.log.cells, rfl⟩

/-- All bits of a byte are a byte with the range that its range becomes. -/
theorem slice_whole_byte {active : DomainSet} {i : Interval} {byte : Value}
    (hs : active.contains .symbolic = true) (hi : active.contains .interval = true)
    (hbits : data.bits = 8) (ht : data.symbolic = some t) (hrange : data.interval = some i)
    (hnormal : i.Normal 8) (h : data.slice active 0 8 = .ok byte) :
    byte.interval = some (if 0 ≤ i.lo then i else .top 8) ∧
      ∃ u, byte.symbolic = some u ∧ u.width = 8 := by
  have hbounds : ¬ (8 ≤ 0 ∨ data.bits < 8) := by omega
  have hrange? : data.interval? = some i := by rw [Value.interval?, hrange, Option.some_or]
  have hwhole := Interval.slice_all (by decide) hnormal
  unfold Value.slice at h
  rw [if_neg hbounds, hrange?, Value.symbolic?_of_symbolic ht, hbits] at h
  have hwidth : (Term.mkSlice 8 t 0 8).width = 8 - 0 := Value.width_of_assemble hs h
  rw [Value.eq_of_assemble active h]
  refine ⟨Value.only_eq_some.2 ⟨hi, ?_⟩, _, Value.only_eq_some.2 ⟨hs, rfl⟩, hwidth⟩
  rw [← hwhole]
  rfl

/-! ### Loads -/

variable [Solver σ]

/-- **The byte on top is read**: the walk stops at its cell, without a query. -/
theorem Topped.readLogByte {byte : Value} (h : e.Topped base byte) {u : Term}
    (hu : byte.symbolic? = some u) (huw : u.width = 8) :
    ∃ v s, readLogByte base 0 e = (.ok v, e.withSymbolic s) ∧
      v.interval = byte.interval? := by
  obtain ⟨hwidth, older, hcells⟩ := h
  have hequal : (Term.mkEqual (byteTerm base 0) (byteTerm base 0)).const? = some 1 :=
    Term.const?_mkEqual_self _
  have hscan : MemoryLog.scan (byteTerm base 0) e.config.readPruning e.log.cells
      e.machine.symbolic = (([], some ⟨byteTerm base 0, byte⟩), e.machine.symbolic) := by
    rw [hcells, MemoryLog.scan_cons, Cell.classify_of_some hequal]
    rfl
  obtain ⟨s, hread, -⟩ := MemoryLog.readByte_of_base hwidth hscan hu huw
  exact ⟨_, s, readLogByte_of_readByte (s := e.machine.symbolic) hread, rfl⟩

/-- A load gives the range of the word that its bytes make. -/
theorem readMemory_interval {bits : Nat} {v : Value} {s : Symbolic σ}
    (htrig : e.governor.isTriggered = true) (hs : e.machine.active.contains .symbolic = true)
    (hw : checkAccessWidth bits = .ok ()) (hbase : address.symbolic? = some base)
    (hread : readLogBytes base (bits / 8) e = (.ok v, e.withSymbolic s)) :
    ∃ v', readMemory address bits e = (.ok v', e.withSymbolic s) ∧
      v'.interval = e.machine.active.only .interval v.interval := by
  unfold readMemory
  rw [apply_get_bind, htrig, Bool.not_true, if_neg Bool.false_ne_true, apply_check_ok hw,
    apply_check_ok (Value.checkOperand_of_symbolic? hbase _), hs, Bool.not_true,
    if_neg Bool.false_ne_true, Value.ensureTerm_of_symbolic? hs hbase]
  dsimp only
  rw [apply_bind_ok hread, apply_get_bind]
  refine ⟨_, rfl, ?_⟩
  show e.machine.active.only .interval _ = _
  -- the number off the bus leaves the range
  split
  · split <;> rfl
  · rfl

/-! ### Round trips -/

/-- **The range of a byte after a trip through memory.** After a store of a byte with a term and a
normal range that was logged, a load of a byte from the address succeeds. Its range denotes the
same bytes if the stored one does not go through zero, and it is every byte if that does. -/
theorem readMemory_writeMemory_range {i : Interval} (htrig : e.governor.isTriggered = true)
    (hs : e.machine.active.contains .symbolic = true)
    (hi : e.machine.active.contains .interval = true) (hbits : data.bits = 8)
    (ht : data.symbolic = some t) (hrange : data.interval = some i) (hnormal : i.Normal 8)
    (hwrite : writeMemory address data e = (.ok (), e')) (hlogged : e'.log ≠ e.log) :
    ∃ v e'' j, readMemory address 8 e' = (.ok v, e'') ∧ v.interval = some j ∧
      (0 ≤ i.lo → ∀ n, j.Mem 8 n ↔ i.Mem 8 n) ∧ (i.lo < 0 → j = .top 8) := by
  obtain ⟨hgovernor, hactive, base, byte, hbase, hslice, htop⟩ :=
    topped_writeMemory htrig hs hbits ht hwrite hlogged
  obtain ⟨hbyte, u, hu, huw⟩ := slice_whole_byte hs hi hbits ht hrange hnormal hslice
  obtain ⟨v, s, hread, hinterval⟩ := htop.readLogByte (Value.symbolic?_of_symbolic hu) huw
  have hbytes : readLogBytes base 1 e' = (.ok v, e'.withSymbolic s) := apply_bind_ok hread _
  have hw : checkAccessWidth 8 = .ok () := rfl
  obtain ⟨v', hload, hpart⟩ :=
    readMemory_interval (hgovernor ▸ htrig) (hactive ▸ hs) hw hbase hbytes
  have hj : v'.interval = some (if 0 ≤ i.lo then i else .top 8) := by
    rw [hpart, hinterval, hactive, Value.interval?, hbyte, Option.some_or]
    exact Value.only_eq_some.2 ⟨hi, rfl⟩
  refine ⟨v', _, _, hload, hj, fun hlo n => ?_, fun hlo => ?_⟩
  · rw [if_pos hlo]
  · rw [if_neg (by omega)]

/-- A range of words comes back from an unknown address. -/
theorem readMemory_writeMemory_range_words :
    let e : Engine Backend := (trigger 0 (Engine.start .empty {} (some (builtIn {})))).2
    let address : Value := ⟨32, none, none, some (.var 32 31)⟩
    let data : Value := ⟨8, none, some ⟨3, 9⟩, some (.var 8 30)⟩
    (e.governor.isTriggered = true ∧ e.machine.active = .all ∧ Interval.Normal 8 ⟨3, 9⟩ ∧
      (writeMemory address data e).1 = .ok () ∧ (writeMemory address data e).2.log ≠ e.log) ∧
    ∃ v e' j, readMemory address 8 (writeMemory address data e).2 = (.ok v, e') ∧
      v.interval = some j ∧ ∀ n, j.Mem 8 n ↔ Interval.Mem ⟨3, 9⟩ 8 n := by
  intro e address data
  have hnormal : Interval.Normal 8 ⟨3, 9⟩ := ⟨by decide, by decide, by decide, by decide⟩
  have hwrite : (writeMemory address data e).1 = .ok () := by decide +kernel
  have hlogged : (writeMemory address data e).2.log ≠ e.log := by decide +kernel
  obtain ⟨v, e', j, hread, hj, hsame, -⟩ :=
    readMemory_writeMemory_range rfl rfl rfl rfl rfl rfl hnormal (Prod.ext hwrite rfl) hlogged
  exact ⟨⟨rfl, rfl, hnormal, hwrite, hlogged⟩, v, e', j, hread, hj, hsame (by decide)⟩

/-- **A range through zero is lost.** Of the bytes from 253 over zero to 5, stored with a term at
an unknown address, a load gives every byte, and so the byte 100. -/
theorem readMemory_writeMemory_straddling :
    let e : Engine Backend := (trigger 0 (Engine.start .empty {} (some (builtIn {})))).2
    let address : Value := ⟨32, none, none, some (.var 32 31)⟩
    let data : Value := ⟨8, none, some ⟨-3, 5⟩, some (.var 8 30)⟩
    Interval.Normal 8 ⟨-3, 5⟩ ∧ (writeMemory address data e).1 = .ok () ∧
      (writeMemory address data e).2.log ≠ e.log ∧
      (readMemory address 8 (writeMemory address data e).2).1 =
        .ok ⟨8, none, some (.top 8), some (.var 8 30)⟩ ∧
      (Interval.top 8).Mem 8 100 ∧ ¬ Interval.Mem ⟨-3, 5⟩ 8 100 := by
  intro e address data
  refine ⟨⟨by decide, by decide, by decide, by decide⟩, by decide +kernel, by decide +kernel,
    by decide +kernel, Interval.mem_top (by decide) (by decide), ?_⟩
  rintro ⟨x, hlo, hhi, hn⟩
  have hmod : Interval.modulus 8 = 256 := rfl
  simp only [hmod] at hlo hhi hn
  omega

end Engine
end Lockstep
