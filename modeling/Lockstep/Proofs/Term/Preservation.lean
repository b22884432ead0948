/-
# What a built term says of its operands

A term that is built from operands for an operation is well typed, has the
width of the result, denotes what the operation on words gives for the words
of the operands, and mentions no variable that they do not mention. The laws
of folding hold over any `Widths`; here they are read over the one that allows
exactly the variables of the operands, at the widths at which these have them.

Key definitions: `Widths.mentionedIn`, `Term.Expresses`.
Key theorems: `Term.Denotes.expresses`, `Term.built_expresses`.
-/
import Lockstep.Proofs.Term.Folding

namespace Lockstep

/-- The variables of the given terms, at the widths at which they mention them. -/
def Widths.mentionedIn (operands : List Term) : Widths :=
  fun id w => ∃ t ∈ operands, t.Mentions id w

namespace Term

/-- A well-typed term of width `w` that denotes `f ρ` under every assignment `ρ` and mentions
only variables of the operands, at the widths that these have there. -/
structure Expresses (operands : List Term) (w : Nat) (f : Assignment → Nat) (t : Term) : Prop where
  wellTyped : t.WellTyped
  width : t.width = w
  eval : ∀ ρ, t.eval ρ = f ρ
  mentions : ∀ id v, t.Mentions id v → ∃ a ∈ operands, a.Mentions id v

variable {operands : List Term} {w m n : Nat} {f : Assignment → Nat} {a b c t : Term}

theorem Denotes.expresses (h : t.Denotes (.mentionedIn operands) w f) :
    t.Expresses operands w f :=
  ⟨h.typed.wellTyped, h.width, h.eval, h.typed.vars⟩

/-- A well-typed operand denotes its word over the variables of the operands. -/
theorem WellTyped.denotes (h : a.WellTyped) (hw : a.width = w) (hmem : a ∈ operands) :
    a.Denotes (.mentionedIn operands) w a.eval :=
  ⟨⟨h, fun _ _ hm => ⟨a, hmem, hm⟩⟩, hw, fun _ => rfl⟩

/-- **Folding preserves meaning.** Each operation on well-typed operands of the widths that it
is told gives a term that expresses the operation on words: it is well typed, has the width of
the result and mentions no other variable than the operands do. -/
theorem built_expresses :
    (∀ (op : BinaryOp) (w : Nat) (a b : Term), a.WellTyped → b.WellTyped → a.width = w →
      b.width = w →
      (mkBinary op w a b).Expresses [a, b] w fun ρ => Word.binary op w (a.eval ρ) (b.eval ρ)) ∧
    (∀ (w : Nat) (a : Term), a.WellTyped → a.width = w →
      (mkInvert w a).Expresses [a] w fun ρ => Word.invert w (a.eval ρ)) ∧
    (∀ (w : Nat) (a : Term) (lo hi : Nat), a.WellTyped → a.width = w → lo < hi → hi ≤ w →
      (mkSlice w a lo hi).Expresses [a] (hi - lo) fun ρ => Word.slice (a.eval ρ) lo hi) ∧
    (∀ (m n : Nat) (a b : Term), a.WellTyped → b.WellTyped → a.width = m → b.width = n →
      m + n ≤ maxBits →
      (mkConcat a m b n).Expresses [a, b] (m + n) fun ρ =>
        Word.concat (a.eval ρ) m (b.eval ρ) n) ∧
    (∀ (w : Nat) (c a b : Term), c.WellTyped → a.WellTyped → b.WellTyped → c.width = 1 →
      a.width = w → b.width = w →
      (mkIte w c a b).Expresses [c, a, b] w fun ρ =>
        Word.ite w (c.eval ρ) (a.eval ρ) (b.eval ρ)) ∧
    (∀ (a b : Term), a.WellTyped → b.WellTyped → a.width = b.width →
      (mkEqual a b).Expresses [a, b] 1 fun ρ => if a.eval ρ = b.eval ρ then 1 else 0) ∧
    ∀ (w : Nat) (a : Term), a.WellTyped → a.width = w →
      (mkIsZero w a).Expresses [a] 1 fun ρ => Word.isZero w (a.eval ρ) := by
  refine ⟨?_, ?_, ?_, ?_, ?_, ?_, ?_⟩
  · intro op w a b ha hb hwa hwb
    exact (denotes_mkBinary (ha.denotes hwa (by simp)) (hb.denotes hwb (by simp)) op).expresses
  · intro w a ha hw
    exact (denotes_mkInvert (ha.denotes hw (by simp))).expresses
  · intro w a lo hi ha hw h1 h2
    exact (denotes_mkSlice (ha.denotes hw (by simp)) h1 h2).expresses
  · intro m n a b ha hb hm hn hmax
    exact (denotes_mkConcat (ha.denotes hm (by simp)) (hb.denotes hn (by simp)) hmax).expresses
  · intro w c a b hc ha hb hwc hwa hwb
    exact (denotes_mkIte (hc.denotes hwc (by simp)) (ha.denotes hwa (by simp))
      (hb.denotes hwb (by simp))).expresses
  · intro a b ha hb hw
    exact (denotes_mkEqual (ha.denotes rfl (by simp)) (hb.denotes hw.symm (by simp))).expresses
  · intro w a ha hw
    exact (denotes_mkIsZero (ha.denotes hw (by simp))).expresses

/-- A slice of a slice of a concatenation: the bits from 4 to 12 of the upper half of two words
of 16 bits are those of the upper word, and the lower one is not mentioned. -/
theorem built_expresses_nested :
    let x := var 16 0
    let y := var 16 1
    let upper := slice 16 (concat 32 x y) 16
    mkSlice 16 upper 4 12 = slice 8 y 4 ∧ upper.WellTyped ∧
      (mkSlice 16 upper 4 12).Expresses [upper] (12 - 4) fun ρ =>
        Word.slice (upper.eval ρ) 4 12 := by
  intro x y upper
  have hupper : upper.WellTyped := by
    simp only [upper, x, y, WellTyped, width, maxBits]
    decide
  exact ⟨by simp [mkSlice, upper, x, y, width], hupper,
    built_expresses.2.2.1 16 upper 4 12 hupper rfl (by decide) (by decide)⟩

end Term
end Lockstep
