/-
# Which parts a result has

An operation on well-formed values is refused for their widths and for nothing
else: whatever parts they have and whatever the terms fold to, the term that
is assembled has the width of the value it is put in. The result has a part
for each active domain for which every operand has one or can take one over,
and no others.

Key definitions: `Value.Fills`.
Key theorems: `Value.isValid_of_assemble`, `Value.fills_of_assemble`, `Value.binary_fills`,
`Value.invert_fills`, `Value.slice_fills`, `Value.concat_fills`, `Value.ite_fills`,
`Value.isZero_fills`, `Value.operations_fill`.
-/
import Lockstep.Proofs.Value.Bridge
import Lockstep.Proofs.Value.Checked

namespace Lockstep

theorem DomainSet.isSome_only {α : Type} (s : DomainSet) (d : Domain) (part : Option α) :
    (s.only d part).isSome = (s.contains d && part.isSome) := by
  unfold only
  cases s.contains d <;> rfl

namespace Value

/-! ### Parts that can be had -/

theorem canEnsure_concrete (v : Value) : v.canEnsure .concrete = v.known?.isSome := by
  unfold canEnsure isValid
  cases hc : v.concrete with
  | none => rw [Option.isSome_none, Bool.false_or]
  | some n => rw [known?_of_concrete hc, Option.isSome_some, Bool.true_or]

theorem canEnsure_interval (v : Value) : v.canEnsure .interval = v.interval?.isSome :=
  (isSome_interval? v).symm

theorem canEnsure_symbolic (v : Value) : v.canEnsure .symbolic = v.symbolic?.isSome :=
  (isSome_symbolic? v).symm

theorem isSome_lift₁ {α β : Type} (f : α → β) (x : Option α) :
    (do some (f (← x))).isSome = x.isSome := by
  cases x <;> rfl

theorem isSome_lift₂ {α β : Type} (f : α → α → β) (x y : Option α) :
    (do some (f (← x) (← y))).isSome = (x.isSome && y.isSome) := by
  cases x <;> cases y <;> rfl

theorem isSome_lift₃ {α β : Type} (f : α → α → α → β) (x y z : Option α) :
    (do some (f (← x) (← y) (← z))).isSome = (x.isSome && (y.isSome && z.isSome)) := by
  cases x <;> cases y <;> cases z <;> rfl

/-- What an operation gives for its operands: the fault that there is about their widths, and
without one a well-formed value of the given width. This has a part for a domain exactly if the
domain is active and every operand has such a part or can take one over. -/
structure Fills (V : Widths) (active : DomainSet) (operands : List Value)
    (result : Except Fault Value) (fault? : Option Fault) (bits : Nat) : Prop where
  refused : ∀ fault, fault? = some fault → result = .error fault
  given : fault? = none → ∃ v, result = .ok v ∧ v.bits = bits ∧ v.WellFormed V ∧
    ∀ d, v.isValid d = (active.contains d && operands.all (·.canEnsure d))

variable {V : Widths} {active : DomainSet} {bits : Nat} {a b c v : Value}
  {operands : List Value} {result : Except Fault Value}

/-- An assembled value has the active ones of the parts that there are. -/
theorem isValid_of_assemble {known : Option Nat} {range : Option Interval} {term : Option Term}
    (h : assemble active bits known range term = .ok v) :
    v.isValid .concrete = (active.contains .concrete && known.isSome) ∧
      v.isValid .interval = (active.contains .interval && range.isSome) ∧
      v.isValid .symbolic = (active.contains .symbolic && term.isSome) := by
  rw [eq_of_assemble active h]
  exact ⟨active.isSome_only _ _, active.isSome_only _ _, active.isSome_only _ _⟩

/-! ### Operations -/

theorem fills_error {fault : Fault} (h : result = .error fault) :
    Fills V active operands result (some fault) bits := by
  refine ⟨?_, nofun⟩
  rintro _ ⟨⟩
  exact h

variable (active)

/-- A value that is assembled of the parts that every operand has, or can take over, has those
that it should have. -/
theorem fills_of_assemble {known : Option Nat} {range : Option Interval} {term : Option Term}
    {shape : Option Nat} (hv : assemble active bits known range term = .ok v)
    (hshape : v.Shape V active bits shape)
    (hc : known.isSome = operands.all (·.canEnsure .concrete))
    (hi : range.isSome = operands.all (·.canEnsure .interval))
    (ht : term.isSome = operands.all (·.canEnsure .symbolic)) :
    Fills V active operands (assemble active bits known range term) none bits := by
  refine ⟨nofun, fun _ => ⟨v, hv, hshape.bits, hshape.wellFormed, fun d => ?_⟩⟩
  obtain ⟨hconcrete, hinterval, hsymbolic⟩ := isValid_of_assemble hv
  cases d with
  | concrete => rw [hconcrete, hc]
  | interval => rw [hinterval, hi]
  | symbolic => rw [hsymbolic, ht]

theorem fills₁ {word : Nat → Nat} {range : Interval → Interval} {term : Term → Term}
    (ha : a.WellFormed V) (h : Lifts₁ V a.bits bits word range term) :
    Fills V active [a] (assemble active bits (do some (word (← a.known?)))
      (do some (range (← a.interval?))) (do some (term (← a.symbolic?)))) none bits := by
  obtain ⟨v, hv, hshape, -⟩ := lift₁_ok active ha h
  refine fills_of_assemble active hv hshape ?_ ?_ ?_ <;>
    simp only [isSome_lift₁, List.all_cons, List.all_nil, Bool.and_true, canEnsure_concrete,
      canEnsure_interval, canEnsure_symbolic]

theorem fills₂ {word : Nat → Nat → Nat} {range : Interval → Interval → Interval}
    {term : Term → Term → Term} (ha : a.WellFormed V) (hb : b.WellFormed V)
    (h : Lifts₂ V a.bits b.bits bits word range term) :
    Fills V active [a, b] (assemble active bits (do some (word (← a.known?) (← b.known?)))
      (do some (range (← a.interval?) (← b.interval?)))
      (do some (term (← a.symbolic?) (← b.symbolic?)))) none bits := by
  obtain ⟨v, hv, hshape, -⟩ := lift₂_ok active ha hb h
  refine fills_of_assemble active hv hshape ?_ ?_ ?_ <;>
    simp only [isSome_lift₂, List.all_cons, List.all_nil, Bool.and_true, canEnsure_concrete,
      canEnsure_interval, canEnsure_symbolic]

theorem binary_fills (op : BinaryOp) (ha : a.WellFormed V) (hb : b.WellFormed V) :
    Fills V active [a, b] (binary active op a b)
      (if a.bits = b.bits then none else some (.operandWidths op.label a.bits b.bits)) a.bits := by
  by_cases hw : a.bits = b.bits
  · unfold binary sameWidth
    rw [if_pos hw, if_pos hw]
    exact fills₂ active ha hb (lifts_binary op ha hw)
  · rw [if_neg hw]
    exact fills_error (binary_error active op hw)

theorem invert_fills (ha : a.WellFormed V) :
    Fills V active [a] (invert active a) none a.bits := fills₁ active ha (lifts_invert ha)

theorem slice_fills (lo hi : Nat) (ha : a.WellFormed V) :
    Fills V active [a] (a.slice active lo hi)
      (if hi ≤ lo ∨ a.bits < hi then some (.sliceRange lo hi a.bits) else none) (hi - lo) := by
  unfold slice
  by_cases h : hi ≤ lo ∨ a.bits < hi
  · rw [if_pos h, if_pos h]
    exact fills_error rfl
  · rw [if_neg h, if_neg h]
    exact fills₁ active ha (lifts_slice ha (by omega) (by omega))

theorem concat_fills (ha : a.WellFormed V) (hb : b.WellFormed V) :
    Fills V active [a, b] (concat active a b)
      (if maxBits < a.bits + b.bits then some (.width (a.bits + b.bits)) else none)
      (a.bits + b.bits) := by
  unfold concat
  by_cases h : maxBits < a.bits + b.bits
  · rw [if_pos h, checkWidth, if_pos (.inr h)]
    exact fills_error rfl
  · have hmax := Nat.le_of_not_lt h
    rw [if_neg h, checkWidth_eq (Nat.add_pos_left ha.pos _) hmax]
    exact fills₂ active ha hb (lifts_concat ha hmax)

theorem ite_fills (hc : c.WellFormed V) (ha : a.WellFormed V) (hb : b.WellFormed V) :
    Fills V active [c, a, b] (ite active c a b)
      (if c.bits ≠ 1 then some (.conditionWidth c.bits)
        else if a.bits = b.bits then none else some (.operandWidths "ite" a.bits b.bits))
      a.bits := by
  by_cases hbit : c.bits ≠ 1
  · unfold ite
    rw [if_pos hbit, if_pos hbit]
    exact fills_error rfl
  by_cases hw : a.bits = b.bits
  · obtain ⟨v, hv, hshape, -⟩ := ite_ok active hc ha hb (not_not.1 hbit) hw
    unfold ite sameWidth at hv ⊢
    rw [if_neg hbit, if_pos hw] at hv ⊢
    rw [if_neg hbit, if_pos hw]
    refine fills_of_assemble active hv hshape ?_ ?_ ?_ <;>
      simp only [isSome_lift₃, List.all_cons, List.all_nil, Bool.and_true, canEnsure_concrete,
        canEnsure_interval, canEnsure_symbolic]
  · unfold ite sameWidth
    rw [if_neg hbit, if_neg hw, if_neg hbit, if_neg hw]
    exact fills_error rfl

theorem isZero_fills (ha : a.WellFormed V) : Fills V active [a] (isZero active a) none 1 :=
  fills₁ active ha (lifts_isZero ha)

/-! ### In 64 bits -/

/-- What a checked operation gives: the fault that there is about the widths of its operands,
whatever their ranges; else it ends the program or gives what it should, and where the ranges of
its operands are near zero it does not end the program. -/
structure Checked.Fills (V : Widths) (active : DomainSet) (operands : List Value)
    (run : Option (Except Fault Value)) (fault? : Option Fault) (bits : Nat) : Prop where
  refused : ∀ fault, fault? = some fault → run = some (.error fault)
  returns : (∀ v ∈ operands, v.Near) → ∃ result, run = some result
  given : ∀ result, run = some result → Value.Fills V active operands result fault? bits

theorem Fills.checked {run : Option (Except Fault Value)} {fault? : Option Fault}
    (h : Fills V active operands result fault? bits) (honly : Only run result)
    (hnear : (∀ v ∈ operands, v.Near) → run = some result)
    (hrefused : ∀ fault, fault? = some fault → run = some (.error fault)) :
    Checked.Fills V active operands run fault? bits := by
  refine ⟨hrefused, fun hoperands => ⟨result, hnear hoperands⟩, fun r hr => ?_⟩
  obtain rfl := honly r hr
  exact h

/-- **Operations are refused for widths alone, and give the parts that they should.** Under any
set of active domains and for any well-formed operands, whatever parts these have: a two-operand
operation is refused exactly if the widths differ, a slice exactly if it is empty or leaves the
value, a concatenation exactly if it is wider than a value may be, a choice exactly if its
condition is not one bit or its branches differ in width, and the others never. Where nothing is
refused, a bound that 64 bits do not hold ends the program, and ranges near zero have none. What
is given is well formed, has the width that the operation says, and has a part for a domain
exactly if the domain is active and every operand has such a part or can take one over. -/
theorem operations_fill (ha : a.WellFormed V) (hb : b.WellFormed V) (hc : c.WellFormed V) :
    (∀ op, Checked.Fills V active [a, b] (Checked.binary active op a b)
      (if a.bits = b.bits then none else some (.operandWidths op.label a.bits b.bits)) a.bits) ∧
    Checked.Fills V active [a] (Checked.invert active a) none a.bits ∧
    (∀ lo hi, Checked.Fills V active [a] (Checked.slice active a lo hi)
      (if hi ≤ lo ∨ a.bits < hi then some (.sliceRange lo hi a.bits) else none) (hi - lo)) ∧
    Checked.Fills V active [a, b] (Checked.concat active a b)
      (if maxBits < a.bits + b.bits then some (.width (a.bits + b.bits)) else none)
      (a.bits + b.bits) ∧
    Checked.Fills V active [c, a, b] (Checked.ite active c a b)
      (if c.bits ≠ 1 then some (.conditionWidth c.bits)
        else if a.bits = b.bits then none else some (.operandWidths "ite" a.bits b.bits))
      a.bits ∧
    Checked.Fills V active [a] (Checked.isZero active a) none 1 := by
  refine ⟨fun op => ?_, ?_, fun lo hi => ?_, ?_, ?_, ?_⟩
  · refine (binary_fills active op ha hb).checked active (Checked.only_binary active ha.le op b)
      (fun h => ?_) fun f hf => ?_
    · exact Checked.binary_eq active op (h a (by simp)) (h b (by simp))
    · by_cases hw : a.bits = b.bits
      · rw [if_pos hw] at hf
        cases hf
      · rw [if_neg hw] at hf
        rw [Checked.binary, sameWidth, if_neg hw, ← Option.some.inj hf]
        rfl
  · exact (invert_fills active ha).checked active (Checked.only_invert active a)
      (fun h => Checked.invert_eq active (h a (by simp))) nofun
  · refine (slice_fills active lo hi ha).checked active (Checked.only_slice active ha.le lo hi)
      (fun h => Checked.slice_eq active lo hi (h a (by simp))) fun f hf => ?_
    by_cases hw : hi ≤ lo ∨ a.bits < hi
    · rw [if_pos hw] at hf
      rw [Checked.slice, if_pos hw, ← Option.some.inj hf]
    · rw [if_neg hw] at hf
      cases hf
  · refine (concat_fills active ha hb).checked active (Checked.only_concat active a b)
      (fun h => ?_) fun f hf => ?_
    · exact Checked.concat_eq active (h a (by simp)) (h b (by simp))
    · by_cases hw : maxBits < a.bits + b.bits
      · rw [if_pos hw] at hf
        rw [Checked.concat, checkWidth, if_pos (.inr hw), ← Option.some.inj hf]
        rfl
      · rw [if_neg hw] at hf
        cases hf
  · refine (ite_fills active hc ha hb).checked active (Checked.only_ite active c a b)
      (fun h => ?_) fun f hf => ?_
    · exact Checked.ite_eq active c (h a (by simp)) (h b (by simp))
    · by_cases hbit : c.bits ≠ 1
      · rw [if_pos hbit] at hf
        rw [Checked.ite, if_pos hbit, ← Option.some.inj hf]
      · rw [if_neg hbit] at hf
        by_cases hw : a.bits = b.bits
        · rw [if_pos hw] at hf
          cases hf
        · rw [if_neg hw] at hf
          rw [Checked.ite, if_neg hbit, sameWidth, if_neg hw, ← Option.some.inj hf]
          rfl
  · exact (isZero_fills active ha).checked active (Checked.only_isZero active ha.le)
      (fun h => Checked.isZero_eq active (h a (by simp))) nofun

/-- A known byte, a range of sixteen bits and a byte that is any variable. The first two cannot be
added, for their widths; put together they have a range alone, since the known byte has one to
take over and the range has nothing else. -/
theorem operations_fill_mixed :
    let a : Value := { bits := 8, concrete := some 7 }
    let b : Value := { bits := 16, interval := some ⟨3, 5⟩ }
    let c : Value := { bits := 8, symbolic := some (.var 8 0) }
    (a.WellFormed (fun _ _ => True) ∧ b.WellFormed (fun _ _ => True) ∧
      c.WellFormed fun _ _ => True) ∧
    Checked.binary .all .add a b = some (.error (.operandWidths (BinaryOp.label .add) 8 16)) ∧
    Checked.ite .all c a a = some (.error (.conditionWidth 8)) ∧
    ∃ v, Checked.concat .all a b = some (.ok v) ∧ v.bits = 24 ∧
      ∀ d, v.isValid d = decide (d = .interval) := by
  intro a b c
  have ha : a.WellFormed fun _ _ => True := by
    refine ⟨by decide, by decide, ?_, nofun⟩
    rintro n ⟨⟩
    decide
  have hb : b.WellFormed fun _ _ => True := ⟨by decide, by decide, nofun, nofun⟩
  have hc : c.WellFormed fun _ _ => True := by
    refine ⟨by decide, by decide, nofun, ?_⟩
    rintro t ⟨⟩
    exact ⟨Term.typed_var.2 ⟨by decide, by decide, trivial⟩, rfl⟩
  have hnear : ∀ v ∈ [a, b], v.Near := by
    refine List.forall_mem_cons.2 ⟨⟨by decide, nofun⟩, List.forall_mem_singleton.2 ⟨by decide, ?_⟩⟩
    rintro i ⟨⟩
    exact ⟨by decide, by decide, by decide⟩
  obtain ⟨hbinary, -, -, hconcat, -⟩ := operations_fill .all ha hb hc
  obtain ⟨-, -, -, -, hite, -⟩ := operations_fill .all ha ha hc
  obtain ⟨r, hr⟩ := hconcat.returns hnear
  obtain ⟨v, rfl, hbits, -, hparts⟩ := (hconcat.given r hr).given rfl
  refine ⟨⟨ha, hb, hc⟩, (hbinary .add).refused _ rfl, hite.refused _ rfl, v, hr, hbits, fun d => ?_⟩
  rw [hparts]
  cases d <;> rfl

/-- A well-formed word that may be any, by bounds as far apart as 64 bits allow: flipping its bits
gives bounds whose distance they do not hold. -/
theorem operations_fill_overflow :
    let a : Value := ⟨32, some 5, some ⟨-2 ^ 63, 2 ^ 63 - 1⟩, some (.var 32 0)⟩
    a.WellFormed (fun _ _ => True) ∧
      (∀ i, a.interval = some i → Interval.long i.lo = true ∧ Interval.long i.hi = true) ∧
      Checked.invert .all a = none := by
  intro a
  refine ⟨⟨by decide, by decide, ?_, ?_⟩, ?_, by decide +kernel⟩
  · rintro n ⟨⟩
    decide
  · rintro t ⟨⟩
    exact ⟨Term.typed_var.2 ⟨by decide, by decide, trivial⟩, rfl⟩
  · rintro i ⟨⟩
    decide

end Value
end Lockstep
