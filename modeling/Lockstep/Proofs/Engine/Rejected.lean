/-
# Stores that are rejected

A triggered store that fails leaves the log: its cells are all made before any
of them is logged. It leaves the bus too, unless the term of the address does
not stand for addresses. Only the first cell finds this out, and by then the
known bytes are on the bus.

Key theorems: `Term.width_mkSlice`, `Engine.width_byteTerm`, `Engine.slice_byte`,
`Engine.cellsOf_eq_error`, `Engine.writeMemory_rejected`.
-/
import Lockstep.Proofs.Engine.Logged

namespace Lockstep

/-- A slice of a term of its width is as wide as the bits that it takes. -/
theorem Term.width_mkSlice {bits : Nat} {a : Term} (h : a.width = bits) (lo hi : Nat) :
    (mkSlice bits a lo hi).width = hi - lo := by
  fun_induction mkSlice bits a lo hi with
  | case1 => rfl
  | case2 bits lo hi w arg base hall => rw [h, hall.1, hall.2, Nat.sub_zero]
  | case3 bits lo hi w arg base _ ih =>
    rw [ih rfl]
    omega
  | case4 bits lo hi w low high hall => rw [h, hall.1, hall.2, Nat.sub_zero]
  | case5 bits lo hi w low high _ _ ih => exact ih rfl
  | case6 bits lo hi w low high _ _ habove ih =>
    rw [ih rfl]
    omega
  | case7 => rfl
  | case8 bits lo hi a _ _ _ hall => rw [h, hall.1, hall.2, Nat.sub_zero]
  | case9 => rfl

namespace Engine

variable {σ : Type} {e e' : Engine σ} {address data : Value} {base : Term} {active : DomainSet}
  {f : Fault}

/-- The term of every byte is as wide as addresses if the one of the word stands for them. -/
theorem width_byteTerm (h : IsAddress base) (i : Nat) :
    (byteTerm base i).width = addressBits := by
  unfold byteTerm Term.mkBinary
  cases hc : base.const? with
  | some n => rfl
  | none =>
    have hw : base.width = addressBits := by
      rcases h with hw | hconst
      · exact hw
      · rw [hc] at hconst
        cases hconst
    simp only [Term.mkBinaryOpen, hc, reduceCtorEq, if_false]
    split
    · exact hw
    · rfl

/-! ### Cells that are refused -/

/-- A byte can be cut out of a word, and it has a term if the word has one. -/
theorem slice_byte (active : DomainSet)
    (hdata : ∀ t, data.symbolic? = some t → t.width = data.bits) {i : Nat}
    (hi : 8 * i + 8 ≤ data.bits) :
    ∃ byte, data.slice active (8 * i) (8 * i + 8) = .ok byte ∧ byte.bits = 8 ∧
      (active.contains .symbolic = true → ∀ t, data.symbolic? = some t →
        ∃ u, byte.symbolic = some u) := by
  have hrange : ¬ (8 * i + 8 ≤ 8 * i ∨ data.bits < 8 * i + 8) := by omega
  have hbits : 8 * i + 8 - 8 * i = 8 := by omega
  unfold Value.slice
  rw [if_neg hrange]
  refine ⟨_, Value.assemble_of_width active _ _ fun u hu => ?_, hbits, fun hs t ht => ?_⟩
  · obtain ⟨t, ht, hu⟩ := Option.bind_eq_some_iff.1 hu
    obtain rfl := Option.some.inj hu
    exact Term.width_mkSlice (hdata t ht) _ _
  · rw [ht]
    exact ⟨_, Value.only_eq_some.2 ⟨hs, rfl⟩⟩

/-- **Why the cells of a word are refused**: the term of its address does not stand for addresses,
which the first cell finds out, or the word has no term. -/
theorem cellsOf_eq_error (hs : active.contains .symbolic = true)
    (hdata : ∀ t, data.symbolic? = some t → t.width = data.bits)
    (hw : checkAccessWidth data.bits = .ok ()) (h : cellsOf active base data = .error f) :
    (¬ IsAddress base ∧ f = .cellAddressWidth base.width) ∨ data.symbolic? = none := by
  obtain ⟨h8, hpos, -⟩ := bounds_of_checkAccessWidth hw
  by_cases hat : IsAddress base
  · refine .inr ?_
    cases ht : data.symbolic? with
    | none => rfl
    | some t =>
      have hall : ∀ i ∈ List.range (data.bits / 8), ∃ c, (do
          Cell.make (byteTerm base i)
            (← data.slice active (8 * i) (8 * i + 8))) = .ok c ∧ True := by
        intro i hi
        have hi : i < data.bits / 8 := List.mem_range.1 hi
        obtain ⟨byte, hslice, hbits, hterm⟩ := slice_byte active hdata (i := i) (by omega)
        obtain ⟨u, hu⟩ := hterm hs t ht
        have hknown :=
          Value.checkOperand_of_symbolic? (Value.symbolic?_of_symbolic hu) "memory cell"
        refine ⟨⟨byteTerm base i, byte⟩, ?_, trivial⟩
        rw [hslice]
        exact cellMake_ok (width_byteTerm hat i) hbits hknown
      obtain ⟨cells, hcells, -⟩ := mapM_ok hall
      unfold cellsOf at h
      rw [hcells] at h
      cases h
  · refine .inl ⟨hat, ?_⟩
    have hwidth : base.width ≠ addressBits := fun hw => hat (.inl hw)
    obtain ⟨k, hk⟩ : ∃ k, data.bits / 8 = k + 1 := ⟨data.bits / 8 - 1, by omega⟩
    obtain ⟨byte, hslice, -⟩ := slice_byte active hdata (i := 0) (by omega)
    have hmake : Cell.make (byteTerm base 0) byte = .error (.cellAddressWidth base.width) := by
      unfold Cell.make
      rw [byteTerm_zero hat, if_pos hwidth]
      rfl
    unfold cellsOf at h
    rw [hk, List.range_succ_eq_map, List.mapM_cons, hslice] at h
    change (Cell.make (byteTerm base 0) byte >>= _) = _ at h
    rw [hmake] at h
    exact (Except.error.inj h).symm

theorem storeWrites_of_unknown (hd : data.known? = none) :
    Value.storeWrites active address data = [] := by
  unfold Value.storeWrites
  rw [hd]
  cases address.known? <;> exact ite_self _

/-- The derived term of a value has its width if the term that it comes with does. -/
theorem width_symbolic? (hdata : ∀ t, data.symbolic = some t → t.width = data.bits) {t : Term}
    (h : data.symbolic? = some t) : t.width = data.bits := by
  cases hs : data.symbolic with
  | some u =>
    obtain rfl : u = t := Option.some.inj ((Value.symbolic?_of_symbolic hs).symm.trans h)
    exact hdata u hs
  | none =>
    rw [Value.symbolic?, hs, Option.none_or] at h
    obtain ⟨n, -, rfl⟩ := Option.map_eq_some_iff.1 h
    rfl

/-- **Why a store is not logged**, once its checks are passed: the term of the address does not
stand for addresses, or the data is not known. -/
theorem logged_eq_error (hdata : ∀ t, data.symbolic = some t → t.width = data.bits)
    (hw : checkAccessWidth data.bits = .ok ()) (h : e.logged address data = .error f) :
    (∃ t, address.symbolic? = some t ∧ ¬ IsAddress t ∧ f = .cellAddressWidth t.width) ∨
      data.known? = none := by
  have hs : e.machine.active.contains .symbolic = true := by
    by_contra hs
    rw [logged, if_neg hs] at h
    cases h
  rw [logged, if_pos hs] at h
  cases hd : data.symbolic? with
  | none =>
    refine .inr ?_
    cases hn : data.known? with
    | none => rfl
    | some n =>
      obtain ⟨u, hu⟩ := Value.symbolic?_isSome hn
      rw [hd] at hu
      cases hu
  | some u =>
    refine .inl ?_
    have hwidth := width_symbolic? hdata hd
    rw [Value.ensure_of_symbolic? hs hd hwidth] at h
    cases ht : address.symbolic? with
    | none =>
      have hens : address.ensureTerm e.machine.active =
          .error (.underivable .symbolic address) := by
        rw [Value.ensureTerm, hs, ht]
        rfl
      rw [hens] at h
      cases h
    | some t =>
      rw [Value.ensureTerm_of_symbolic? hs ht] at h
      dsimp only [Except.toOption, Option.getD_some] at h
      cases hcells : cellsOf e.machine.active t { data with symbolic := some u } with
      | ok cells =>
        rw [hcells] at h
        cases h
      | error fault =>
        rw [hcells] at h
        obtain rfl := Except.error.inj h
        have hword : ∀ v, ({ data with symbolic := some u } : Value).symbolic? = some v →
            v.width = data.bits := fun v hv => Option.some.inj hv ▸ hwidth
        rcases cellsOf_eq_error hs hword hw hcells with hnarrow | hnone
        · exact ⟨t, rfl, hnarrow⟩
        · cases hnone

/-- **A rejected store leaves the log**, and it leaves the bus unless the address has a term that
does not stand for addresses. Such a store is rejected for the width of this term with its known
bytes on the bus. -/
theorem writeMemory_rejected (htrig : e.governor.isTriggered = true)
    (hstaged : e.machine.staged = none)
    (hdata : ∀ t, data.symbolic = some t → t.width = data.bits)
    (h : writeMemory address data e = (.error f, e')) :
    e'.log = e.log ∧
      (e'.machine.bus = e.machine.bus ∨
        ∃ t, address.symbolic? = some t ∧ ¬ IsAddress t ∧ f = .cellAddressWidth t.width ∧
          e'.machine.bus =
            e.machine.bus.setBytes (Value.storeWrites e.machine.active address data)) := by
  rcases writeMemory_checks htrig address data with ⟨fault, hrefused⟩ | ⟨hw, ha, hd⟩
  · rw [hrefused] at h
    obtain ⟨-, rfl⟩ := Prod.mk.inj h
    exact ⟨rfl, .inl rfl⟩
  · obtain ⟨journal, hstore⟩ := writeMemory_eq_storing htrig hw ha hd
    rw [hstore] at h
    cases hlogged : e.logged address data with
    | ok log =>
      rw [hlogged] at h
      cases h
    | error fault =>
      rw [hlogged] at h
      obtain ⟨hfault, rfl⟩ := Prod.mk.inj h
      obtain rfl := Except.error.inj hfault
      have hbus := bus_storing address data hstaged e.log journal
      refine ⟨rfl, ?_⟩
      rcases logged_eq_error hdata hw hlogged with ⟨t, ht, hat, hf⟩ | hunknown
      · exact .inr ⟨t, ht, hat, hf, hbus⟩
      · rw [storeWrites_of_unknown hunknown] at hbus
        exact .inl hbus

/-- A word of which only a range is known is stored while ranges are not active: no cell can be
made of it, and neither the bus nor the log changes. -/
theorem writeMemory_rejected_range :
    let e : Engine Backend := (setActive ⟨true, false, true⟩
      (trigger 0 (Engine.start .empty {} (some (builtIn {})))).2).2
    let address : Value := ⟨32, some 64, none, some (.const 32 64)⟩
    let data : Value := ⟨16, none, some ⟨3, 5⟩, none⟩
    (writeMemory address data e).1 = .error (.emptyOperand "memory cell") ∧
      (writeMemory address data e).2.log = e.log ∧
      (writeMemory address data e).2.machine.bus = e.machine.bus := by
  intro e address data
  have hfault : (writeMemory address data e).1 = .error (.emptyOperand "memory cell") := by
    decide +kernel
  have hdata : ∀ t, data.symbolic = some t → t.width = data.bits := by
    intro t ht
    cases ht
  obtain ⟨hlog, hbus | ⟨t, -, -, hf, -⟩⟩ :=
    writeMemory_rejected rfl rfl hdata (Prod.ext hfault rfl)
  · exact ⟨hfault, hlog, hbus⟩
  · cases hf

/-- **A store can be rejected with its byte on the bus.** The number of the address is known, and
its term is a variable of 16 bits. -/
theorem writeMemory_rejected_stored :
    let e : Engine Backend := (trigger 0 (Engine.start .empty {} (some (builtIn {})))).2
    let address : Value := ⟨16, some 64, none, some (.var 16 30)⟩
    let data : Value := ⟨8, some 17, none, some (.const 8 17)⟩
    (writeMemory address data e).1 = .error (.cellAddressWidth 16) ∧
      e.machine.bus.getByte 64 = 0 ∧
      (writeMemory address data e).2.machine.bus.getByte 64 = 17 := by
  intro e address data
  refine ⟨?_, rfl, ?_⟩
  · decide +kernel
  · decide +kernel

end Engine
end Lockstep
