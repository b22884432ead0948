/-
# Operations on described words

An operation on well-formed values succeeds where the widths allow it. The
result is well formed, its number is the operation on the known numbers, and
it describes what the operation on words gives for words that the operands
describe, whatever domains are active.

Key definitions: `Value.Shape`, `Value.Lifts₁`, `Value.Lifts₂`.
Key theorems: `Value.assemble_of_width`, `Value.assemble_ok`, `Value.assemble_about`,
`Value.Lifts₁.about`, `Value.Lifts₂.about`, `Value.ite_about`, `Value.number_ok`,
`Value.binary_ok`, `Value.invert_ok`, `Value.slice_ok`, `Value.concat_ok`, `Value.ite_ok`,
`Value.isZero_ok`.
-/
import Lockstep.Proofs.Value.Meaning
import Lockstep.Value.Operations

namespace Lockstep
namespace Value

/-- A well-formed value of the given width whose number, if its domain is
active, is the given one. -/
structure Shape (V : Widths) (active : DomainSet) (bits : Nat) (known : Option Nat) (v : Value) :
    Prop where
  bits : v.bits = bits
  wellFormed : v.WellFormed V
  concrete : v.concrete = active.only .concrete known

variable {V : Widths} (active : DomainSet) {bits : Nat} {a b c : Value}

theorem checkWidth_eq (hpos : 0 < bits) (hle : bits ≤ maxBits) : checkWidth bits = .ok () := by
  rw [checkWidth, if_neg (by omega)]
  rfl

theorem assemble_of_width (known : Option Nat) (range : Option Interval) {term : Option Term}
    (h : ∀ t, term = some t → t.width = bits) :
    assemble active bits known range term =
      .ok { bits, concrete := active.only .concrete known,
            interval := active.only .interval range, symbolic := active.only .symbolic term } := by
  unfold assemble
  split
  · rename_i hnone
    rw [hnone]
    rfl
  · rename_i t hsome
    rw [hsome]
    exact setSymbolic_eq (h t (only_eq_some.1 hsome).2)

/-- **A value is assembled of parts that fit its width.** -/
theorem assemble_ok (known : Option Nat) (range : Option Interval) (term : Option Term)
    (hpos : 0 < bits) (hle : bits ≤ maxBits) (hc : ∀ n, known = some n → n < Word.count bits)
    (ht : ∀ t, term = some t → t.Typed V ∧ t.width = bits) :
    ∃ v, assemble active bits known range term = .ok v ∧ v.Shape V active bits known := by
  refine ⟨_, assemble_of_width active known range fun t hs => (ht t hs).2, rfl, ?_, rfl⟩
  exact ⟨hpos, hle, fun n hn => hc n (only_eq_some.1 hn).2,
    fun t hs => ht t (only_eq_some.1 hs).2⟩

theorem eq_of_assemble {known : Option Nat} {range : Option Interval} {term : Option Term}
    {v : Value} (h : assemble active bits known range term = .ok v) :
    v = { bits, concrete := active.only .concrete known, interval := active.only .interval range,
          symbolic := active.only .symbolic term } := by
  unfold assemble at h
  split at h
  · rename_i hnone
    rw [hnone]
    exact (Except.ok.inj h).symm
  · rename_i t hsome
    rw [eq_of_setSymbolic h, hsome]

/-- An assembled value tells of every number that all of its parts tell of. -/
theorem assemble_about {known : Option Nat} {range : Option Interval} {term : Option Term}
    {v : Value} {ρ : Assignment} {n : Nat} (hv : assemble active bits known range term = .ok v)
    (hc : ∀ m, known = some m → m = n) (hi : ∀ i, range = some i → i.Mem bits n)
    (ht : ∀ t, term = some t → t.eval ρ = n) : v.About ρ n := by
  rw [eq_of_assemble active hv]
  exact ⟨fun m hm => hc m (only_eq_some.1 hm).2, fun i h => hi i (only_eq_some.1 h).2,
    fun t hsome => ht t (only_eq_some.1 hsome).2⟩

/-! ### Numbers and operations on one value -/

theorem number_ok (hpos : 0 < bits) (hle : bits ≤ maxBits) (n : Nat) :
    ∃ v, number active bits n = .ok v ∧ v.Shape V active bits (some (Word.truncate bits n)) ∧
      ∀ ρ, v.Describes ρ (Word.truncate bits n) := by
  have hden := Term.denotes_number (V := V) hpos hle n
  obtain ⟨v, hv, hshape⟩ := assemble_ok (V := V) active
    (some (Word.truncate bits n)) (some (.exact bits n)) (some (.number bits n)) hpos hle
    (by
      rintro m ⟨⟩
      exact Word.truncate_lt bits n)
    (by
      rintro t ⟨⟩
      exact ⟨hden.typed, hden.width⟩)
  refine ⟨v, ?_, hshape, fun ρ => About.describes ?_ (hshape.bits ▸ Word.truncate_lt bits n)⟩
  · rw [number, checkWidth_eq hpos hle]
    exact hv
  · refine assemble_about active hv ?_ ?_ ?_
    · rintro m ⟨⟩
      rfl
    · rintro i ⟨⟩
      exact Interval.mem_exact hle n
    · rintro t ⟨⟩
      exact hden.eval ρ

theorem bind_eq_some {α β : Type} {x : Option α} {f : α → β} {y : β}
    (h : (do some (f (← x))) = some y) : ∃ a, x = some a ∧ f a = y := by
  obtain ⟨a, ha, hf⟩ := Option.bind_eq_some_iff.1 h
  exact ⟨a, ha, Option.some.inj hf⟩

theorem bind₂_eq_some {α β : Type} {x y : Option α} {f : α → α → β} {z : β}
    (h : (do some (f (← x) (← y))) = some z) : ∃ a b, x = some a ∧ y = some b ∧ f a b = z := by
  obtain ⟨a, ha, h⟩ := Option.bind_eq_some_iff.1 h
  obtain ⟨b, hb, hf⟩ := Option.bind_eq_some_iff.1 h
  exact ⟨a, b, ha, hb, Option.some.inj hf⟩

theorem bind₃_eq_some {α β : Type} {x y z : Option α} {f : α → α → α → β} {r : β}
    (h : (do some (f (← x) (← y) (← z))) = some r) :
    ∃ a b c, x = some a ∧ y = some b ∧ z = some c ∧ f a b c = r := by
  obtain ⟨a, ha, h⟩ := Option.bind_eq_some_iff.1 h
  obtain ⟨b, c, hb, hc, hf⟩ := bind₂_eq_some h
  exact ⟨a, b, c, ha, hb, hc, hf⟩

/-- What holds of an operation on one value: words, ranges and terms of it fit
together at the widths of the operand and the result. -/
structure Lifts₁ (V : Widths) (m n : Nat) (word : Nat → Nat) (range : Interval → Interval)
    (term : Term → Term) : Prop where
  pos : 0 < n
  le : n ≤ maxBits
  lt : ∀ x, word x < Word.count n
  mem : ∀ i x, i.Mem m x → (range i).Mem n (word x)
  denotes : ∀ t, t.Typed V → t.width = m → (term t).Denotes V n fun ρ => word (t.eval ρ)

section

variable {n : Nat} {word : Nat → Nat} {range : Interval → Interval} {term : Term → Term}

/-- An operation on one value, whatever parts it has, tells of the operation on its number. -/
theorem Lifts₁.about {v : Value} {ρ : Assignment} {x : Nat}
    (h : Lifts₁ V a.bits n word range term) (ha : a.WellFormed V)
    (hv : assemble active n (do some (word (← a.known?))) (do some (range (← a.interval?)))
      (do some (term (← a.symbolic?))) = .ok v) (hx : a.About ρ x) : v.About ρ (word x) := by
  have hlt := fun m hm => hx.lt_of_known? ha (m := m) hm
  refine assemble_about active hv ?_ ?_ ?_
  · intro m hm
    obtain ⟨k, hk, rfl⟩ := bind_eq_some hm
    rw [hx.known? ha.le hk]
  · intro i hi
    obtain ⟨j, hj, rfl⟩ := bind_eq_some hi
    exact h.mem j x (hx.interval? ha.le hlt hj)
  · intro t ht
    obtain ⟨s, hs, rfl⟩ := bind_eq_some ht
    rw [(h.denotes s (ha.symbolic? hs).1 (ha.symbolic? hs).2).eval, hx.symbolic? ha.le hlt hs]

theorem lift₁_ok (ha : a.WellFormed V) (h : Lifts₁ V a.bits n word range term) :
    ∃ v, assemble active n (do some (word (← a.known?))) (do some (range (← a.interval?)))
        (do some (term (← a.symbolic?))) = .ok v ∧
      v.Shape V active n (do some (word (← a.known?))) ∧
      ∀ ρ x, a.Describes ρ x → v.Describes ρ (word x) := by
  obtain ⟨v, hv, hshape⟩ := assemble_ok (V := V) active
    (do some (word (← a.known?))) (do some (range (← a.interval?)))
    (do some (term (← a.symbolic?))) h.pos h.le
    (by
      intro m hm
      obtain ⟨x, -, rfl⟩ := bind_eq_some hm
      exact h.lt x)
    (by
      intro t ht
      obtain ⟨s, hs, rfl⟩ := bind_eq_some ht
      have hden := h.denotes s (ha.symbolic? hs).1 (ha.symbolic? hs).2
      exact ⟨hden.typed, hden.width⟩)
  exact ⟨v, hv, hshape, fun ρ x hx =>
    (h.about active ha hv hx.about).describes (hshape.bits ▸ h.lt x)⟩

end

theorem lifts_invert (ha : a.WellFormed V) :
    Lifts₁ V a.bits a.bits (Word.invert a.bits) (Interval.invert a.bits)
      (Term.mkInvert a.bits) where
  pos := ha.pos
  le := ha.le
  lt := Word.invert_lt a.bits
  mem _ _ hi := Interval.mem_invert ha.le hi
  denotes _ ht hw := Term.denotes_mkInvert ⟨ht, hw, fun _ => rfl⟩

theorem invert_ok (ha : a.WellFormed V) :
    ∃ v, invert active a = .ok v ∧
      v.Shape V active a.bits (do some (Word.invert a.bits (← a.known?))) ∧
      ∀ ρ x, a.Describes ρ x → v.Describes ρ (Word.invert a.bits x) :=
  lift₁_ok active ha (lifts_invert ha)

theorem lifts_slice {lo hi : Nat} (ha : a.WellFormed V) (h1 : lo < hi) (h2 : hi ≤ a.bits) :
    Lifts₁ V a.bits (hi - lo) (Word.slice · lo hi) (Interval.slice a.bits · lo hi)
      (Term.mkSlice a.bits · lo hi) where
  pos := by omega
  le := by
    have := ha.le
    omega
  lt x := Word.slice_lt x lo hi
  mem _ _ hi := Interval.mem_slice ha.le h1 h2 hi
  denotes _ ht hw := Term.denotes_mkSlice ⟨ht, hw, fun _ => rfl⟩ h1 h2

theorem slice_ok {lo hi : Nat} (ha : a.WellFormed V) (h1 : lo < hi) (h2 : hi ≤ a.bits) :
    ∃ v, a.slice active lo hi = .ok v ∧
      v.Shape V active (hi - lo) (do some (Word.slice (← a.known?) lo hi)) ∧
      ∀ ρ x, a.Describes ρ x → v.Describes ρ (Word.slice x lo hi) := by
  unfold slice
  rw [if_neg (by omega)]
  exact lift₁_ok active ha (lifts_slice ha h1 h2)

theorem lifts_isZero (ha : a.WellFormed V) :
    Lifts₁ V a.bits 1 (Word.isZero a.bits) (Interval.isZero a.bits) (Term.mkIsZero a.bits) where
  pos := Nat.one_pos
  le := by decide
  lt := Word.isZero_lt a.bits
  mem _ _ hi := Interval.mem_isZero ha.le hi
  denotes _ ht hw := Term.denotes_mkIsZero ⟨ht, hw, fun _ => rfl⟩

theorem isZero_ok (ha : a.WellFormed V) :
    ∃ v, isZero active a = .ok v ∧
      v.Shape V active 1 (do some (Word.isZero a.bits (← a.known?))) ∧
      ∀ ρ x, a.Describes ρ x → v.Describes ρ (Word.isZero a.bits x) :=
  lift₁_ok active ha (lifts_isZero ha)

/-! ### Operations on several values -/

/-- What holds of an operation on two values, like `Lifts₁`. -/
structure Lifts₂ (V : Widths) (l m n : Nat) (word : Nat → Nat → Nat)
    (range : Interval → Interval → Interval) (term : Term → Term → Term) : Prop where
  pos : 0 < n
  le : n ≤ maxBits
  lt : ∀ x y, word x y < Word.count n
  mem : ∀ i j x y, i.Mem l x → j.Mem m y → (range i j).Mem n (word x y)
  denotes : ∀ s t, s.Typed V → s.width = l → t.Typed V → t.width = m →
    (term s t).Denotes V n fun ρ => word (s.eval ρ) (t.eval ρ)

section

variable {n : Nat} {word : Nat → Nat → Nat} {range : Interval → Interval → Interval}
  {term : Term → Term → Term}

/-- An operation on two values, whatever parts they have, tells of the operation on their
numbers. -/
theorem Lifts₂.about {v : Value} {ρ : Assignment} {x y : Nat}
    (h : Lifts₂ V a.bits b.bits n word range term) (ha : a.WellFormed V) (hb : b.WellFormed V)
    (hv : assemble active n (do some (word (← a.known?) (← b.known?)))
      (do some (range (← a.interval?) (← b.interval?)))
      (do some (term (← a.symbolic?) (← b.symbolic?))) = .ok v)
    (hx : a.About ρ x) (hy : b.About ρ y) : v.About ρ (word x y) := by
  have hlt := fun m hm => hx.lt_of_known? ha (m := m) hm
  have hlt' := fun m hm => hy.lt_of_known? hb (m := m) hm
  refine assemble_about active hv ?_ ?_ ?_
  · intro m hm
    obtain ⟨k, l, hk, hl, rfl⟩ := bind₂_eq_some hm
    rw [hx.known? ha.le hk, hy.known? hb.le hl]
  · intro i hi
    obtain ⟨j, k, hj, hk, rfl⟩ := bind₂_eq_some hi
    exact h.mem j k x y (hx.interval? ha.le hlt hj) (hy.interval? hb.le hlt' hk)
  · intro t ht
    obtain ⟨r, s, hr, hs, rfl⟩ := bind₂_eq_some ht
    rw [(h.denotes r s (ha.symbolic? hr).1 (ha.symbolic? hr).2 (hb.symbolic? hs).1
      (hb.symbolic? hs).2).eval, hx.symbolic? ha.le hlt hr, hy.symbolic? hb.le hlt' hs]

theorem lift₂_ok (ha : a.WellFormed V) (hb : b.WellFormed V)
    (h : Lifts₂ V a.bits b.bits n word range term) :
    ∃ v, assemble active n (do some (word (← a.known?) (← b.known?)))
        (do some (range (← a.interval?) (← b.interval?)))
        (do some (term (← a.symbolic?) (← b.symbolic?))) = .ok v ∧
      v.Shape V active n (do some (word (← a.known?) (← b.known?))) ∧
      ∀ ρ x y, a.Describes ρ x → b.Describes ρ y → v.Describes ρ (word x y) := by
  obtain ⟨v, hv, hshape⟩ := assemble_ok (V := V) active
    (do some (word (← a.known?) (← b.known?)))
    (do some (range (← a.interval?) (← b.interval?)))
    (do some (term (← a.symbolic?) (← b.symbolic?))) h.pos h.le
    (by
      intro m hm
      obtain ⟨x, y, -, -, rfl⟩ := bind₂_eq_some hm
      exact h.lt x y)
    (by
      intro t ht
      obtain ⟨r, s, hr, hs, rfl⟩ := bind₂_eq_some ht
      have hden := h.denotes r s (ha.symbolic? hr).1 (ha.symbolic? hr).2 (hb.symbolic? hs).1
        (hb.symbolic? hs).2
      exact ⟨hden.typed, hden.width⟩)
  exact ⟨v, hv, hshape, fun ρ x y hx hy =>
    (h.about active ha hb hv hx.about hy.about).describes (hshape.bits ▸ h.lt x y)⟩

end

theorem lifts_binary (op : BinaryOp) (ha : a.WellFormed V) (hw : a.bits = b.bits) :
    Lifts₂ V a.bits b.bits a.bits (Word.binary op a.bits) (Interval.binary op a.bits)
      (Term.mkBinary op a.bits) where
  pos := ha.pos
  le := ha.le
  lt := Word.binary_lt op a.bits
  mem _ _ _ _ hi hj := Interval.mem_binary ha.le op hi (hw ▸ hj)
  denotes _ _ hs hs' ht ht' := Term.denotes_mkBinary ⟨hs, hs', fun _ => rfl⟩
    ⟨ht, ht'.trans hw.symm, fun _ => rfl⟩ op

theorem binary_ok (op : BinaryOp) (ha : a.WellFormed V) (hb : b.WellFormed V)
    (hw : a.bits = b.bits) :
    ∃ v, binary active op a b = .ok v ∧
      v.Shape V active a.bits (do some (Word.binary op a.bits (← a.known?) (← b.known?))) ∧
      ∀ ρ x y, a.Describes ρ x → b.Describes ρ y →
        v.Describes ρ (Word.binary op a.bits x y) := by
  unfold binary sameWidth
  rw [if_pos hw]
  exact lift₂_ok active ha hb (lifts_binary op ha hw)

theorem binary_error (op : BinaryOp) (hw : a.bits ≠ b.bits) :
    binary active op a b = .error (.operandWidths op.label a.bits b.bits) := by
  unfold binary sameWidth
  rw [if_neg hw]
  rfl

theorem lifts_concat (ha : a.WellFormed V) (hmax : a.bits + b.bits ≤ maxBits) :
    Lifts₂ V a.bits b.bits (a.bits + b.bits) (Word.concat · a.bits · b.bits)
      (Interval.concat · a.bits · b.bits) (Term.mkConcat · a.bits · b.bits) where
  pos := Nat.add_pos_left ha.pos _
  le := hmax
  lt x y := Word.concat_lt x y hmax
  mem _ _ _ _ hi hj := Interval.mem_concat hmax hi hj
  denotes _ _ hs hs' ht ht' := Term.denotes_mkConcat ⟨hs, hs', fun _ => rfl⟩
    ⟨ht, ht', fun _ => rfl⟩ hmax

theorem concat_ok (ha : a.WellFormed V) (hb : b.WellFormed V) (hmax : a.bits + b.bits ≤ maxBits) :
    ∃ v, concat active a b = .ok v ∧
      v.Shape V active (a.bits + b.bits)
        (do some (Word.concat (← a.known?) a.bits (← b.known?) b.bits)) ∧
      ∀ ρ x y, a.Describes ρ x → b.Describes ρ y →
        v.Describes ρ (Word.concat x a.bits y b.bits) := by
  unfold concat
  rw [checkWidth_eq (Nat.add_pos_left ha.pos _) hmax]
  exact lift₂_ok active ha hb (lifts_concat ha hmax)

/-- The term of a choice between values denotes the choice between their words. -/
theorem denotes_ite (hc : c.WellFormed V) (ha : a.WellFormed V) (hb : b.WellFormed V)
    (hbit : c.bits = 1) (hw : a.bits = b.bits) {r s t : Term} (hr : c.symbolic? = some r)
    (hs : a.symbolic? = some s) (ht : b.symbolic? = some t) :
    (Term.mkIte a.bits r s t).Denotes V a.bits fun ρ =>
      Word.ite a.bits (r.eval ρ) (s.eval ρ) (t.eval ρ) :=
  Term.denotes_mkIte (hbit ▸ hc.denotes hr) (ha.denotes hs) (hw ▸ hb.denotes ht)

/-- A choice between values, whatever parts they have, tells of the choice between their
numbers. -/
theorem ite_about {v : Value} {ρ : Assignment} {x y z : Nat} (hc : c.WellFormed V)
    (ha : a.WellFormed V) (hb : b.WellFormed V) (hbit : c.bits = 1) (hw : a.bits = b.bits)
    (hv : assemble active a.bits
      (do some (Word.ite a.bits (← c.known?) (← a.known?) (← b.known?)))
      (do some (Interval.ite a.bits (← c.interval?) (← a.interval?) (← b.interval?)))
      (do some (Term.mkIte a.bits (← c.symbolic?) (← a.symbolic?) (← b.symbolic?))) = .ok v)
    (hz : c.About ρ z) (hx : a.About ρ x) (hy : b.About ρ y) :
    v.About ρ (Word.ite a.bits z x y) := by
  have hltc := fun m hm => hz.lt_of_known? hc (m := m) hm
  have hlta := fun m hm => hx.lt_of_known? ha (m := m) hm
  have hltb := fun m hm => hy.lt_of_known? hb (m := m) hm
  refine assemble_about active hv ?_ ?_ ?_
  · intro m hm
    obtain ⟨k, l, l', hk, hl, hl', rfl⟩ := bind₃_eq_some hm
    rw [hz.known? hc.le hk, hx.known? ha.le hl, hy.known? hb.le hl']
  · intro i hi
    obtain ⟨j, k, k', hj, hk, hk', rfl⟩ := bind₃_eq_some hi
    exact Interval.mem_ite ha.le (hbit ▸ hz.interval? hc.le hltc hj)
      (hx.interval? ha.le hlta hk) (hw ▸ hy.interval? hb.le hltb hk')
  · intro t ht
    obtain ⟨r, s, s', hr, hs, hs', rfl⟩ := bind₃_eq_some ht
    rw [(denotes_ite hc ha hb hbit hw hr hs hs').eval, hz.symbolic? hc.le hltc hr,
      hx.symbolic? ha.le hlta hs, hy.symbolic? hb.le hltb hs']

theorem ite_ok (hc : c.WellFormed V) (ha : a.WellFormed V) (hb : b.WellFormed V)
    (hbit : c.bits = 1) (hw : a.bits = b.bits) :
    ∃ v, ite active c a b = .ok v ∧
      v.Shape V active a.bits
        (do some (Word.ite a.bits (← c.known?) (← a.known?) (← b.known?))) ∧
      ∀ ρ z x y, c.Describes ρ z → a.Describes ρ x → b.Describes ρ y →
        v.Describes ρ (Word.ite a.bits z x y) := by
  obtain ⟨v, hv, hshape⟩ := assemble_ok (V := V) active
    (do some (Word.ite a.bits (← c.known?) (← a.known?) (← b.known?)))
    (do some (Interval.ite a.bits (← c.interval?) (← a.interval?) (← b.interval?)))
    (do some (Term.mkIte a.bits (← c.symbolic?) (← a.symbolic?) (← b.symbolic?)))
    ha.pos ha.le
    (by
      intro m hm
      obtain ⟨z, x, y, -, -, -, rfl⟩ := bind₃_eq_some hm
      exact Word.ite_lt a.bits z x y)
    (by
      intro t ht
      obtain ⟨r, s, s', hr, hs, hs', rfl⟩ := bind₃_eq_some ht
      have hden := denotes_ite hc ha hb hbit hw hr hs hs'
      exact ⟨hden.typed, hden.width⟩)
  refine ⟨v, ?_, hshape, fun ρ z x y hz hx hy => ?_⟩
  · unfold ite sameWidth
    rw [if_neg (not_not_intro hbit), if_pos hw]
    exact hv
  · exact (ite_about active hc ha hb hbit hw hv hz.about hx.about hy.about).describes
      (hshape.bits ▸ Word.ite_lt a.bits z x y)

end Value
end Lockstep
