/-
# Typed terms

A variable of a term stands at a width. `Widths` says which variables may
stand at which widths: with every width allowed, `Term.Typed` is plain
well-typedness, and with one width for each variable it is what a solver that
knows variables by their numbers needs. The word that a typed term denotes is
a word of its width and depends on the variables of the term only.

Key definitions: `Widths`, `Widths.Functional`, `Term.Typed`, `Term.Denotes`.
Key theorems: `Term.Typed.eval_lt`, `Term.eval_congr`, `Term.Typed.mono`,
`Term.Denotes.of_typed`.
-/
import Lockstep.Proofs.Word
import Lockstep.Term.Meaning

namespace Lockstep

/-- Which variables may stand at which widths. -/
abbrev Widths := Nat → Nat → Prop

/-- Every variable stands at one width at most. -/
def Widths.Functional (V : Widths) : Prop := ∀ id w w', V id w → V id w' → w = w'

namespace Term

/-- A well-typed term whose variables stand at allowed widths. -/
structure Typed (V : Widths) (t : Term) : Prop where
  wellTyped : t.WellTyped
  vars : ∀ id w, t.Mentions id w → V id w

variable {V V' : Widths}

/-! ### Widths -/

theorem WellTyped.width_bounds {t : Term} (h : t.WellTyped) : 0 < t.width ∧ t.width ≤ maxBits := by
  induction t with
  | const w v => exact ⟨h.1, h.2.1⟩
  | var w id => exact h
  | binary op w a b iha _ => exact h.2.2.1 ▸ iha h.1
  | invert w a ih => exact h.2 ▸ ih h.1
  | slice w a lo ih =>
    obtain ⟨ha, hw, hlo⟩ := h
    have := ih ha
    exact ⟨hw, by simp only [width]; omega⟩
  | concat w lo hi ihl _ =>
    obtain ⟨hl, -, hw, hmax⟩ := h
    have := ihl hl
    exact ⟨by simp only [width]; omega, hmax⟩
  | ite w c t f _ iht _ => exact h.2.2.2.2.1 ▸ iht h.2.1
  | equal a b _ _ => exact ⟨Nat.one_pos, by simp [width, maxBits]⟩

theorem Typed.width_pos {t : Term} (h : t.Typed V) : 0 < t.width := h.wellTyped.width_bounds.1

theorem Typed.width_le {t : Term} (h : t.Typed V) : t.width ≤ maxBits :=
  h.wellTyped.width_bounds.2

/-! ### Constructors -/

theorem typed_const {w v : Nat} :
    (const w v).Typed V ↔ 0 < w ∧ w ≤ maxBits ∧ v < Word.count w :=
  ⟨fun h => h.wellTyped, fun h => ⟨h, fun _ _ => False.elim⟩⟩

theorem typed_var {w id : Nat} : (var w id).Typed V ↔ 0 < w ∧ w ≤ maxBits ∧ V id w := by
  constructor
  · exact fun h => ⟨h.wellTyped.1, h.wellTyped.2, h.vars id w ⟨rfl, rfl⟩⟩
  · rintro ⟨h1, h2, h3⟩
    refine ⟨⟨h1, h2⟩, ?_⟩
    rintro _ _ ⟨rfl, rfl⟩
    exact h3

theorem typed_binary {op : BinaryOp} {w : Nat} {a b : Term} :
    (binary op w a b).Typed V ↔ a.Typed V ∧ b.Typed V ∧ a.width = w ∧ b.width = w := by
  constructor
  · rintro ⟨⟨h1, h2, h3, h4⟩, hv⟩
    exact ⟨⟨h1, fun i x h => hv i x (.inl h)⟩, ⟨h2, fun i x h => hv i x (.inr h)⟩, h3, h4⟩
  · rintro ⟨h1, h2, h3, h4⟩
    exact ⟨⟨h1.1, h2.1, h3, h4⟩, fun i x h => h.elim (h1.2 i x) (h2.2 i x)⟩

theorem typed_invert {w : Nat} {a : Term} :
    (invert w a).Typed V ↔ a.Typed V ∧ a.width = w :=
  ⟨fun h => ⟨⟨h.1.1, h.2⟩, h.1.2⟩, fun h => ⟨⟨h.1.1, h.2⟩, h.1.2⟩⟩

theorem typed_slice {w lo : Nat} {a : Term} :
    (slice w a lo).Typed V ↔ a.Typed V ∧ 0 < w ∧ lo + w ≤ a.width :=
  ⟨fun h => ⟨⟨h.1.1, h.2⟩, h.1.2⟩, fun h => ⟨⟨h.1.1, h.2⟩, h.1.2⟩⟩

theorem typed_concat {w : Nat} {lo hi : Term} :
    (concat w lo hi).Typed V ↔
      lo.Typed V ∧ hi.Typed V ∧ w = lo.width + hi.width ∧ w ≤ maxBits := by
  constructor
  · rintro ⟨⟨h1, h2, h3, h4⟩, hv⟩
    exact ⟨⟨h1, fun i x h => hv i x (.inl h)⟩, ⟨h2, fun i x h => hv i x (.inr h)⟩, h3, h4⟩
  · rintro ⟨h1, h2, h3, h4⟩
    exact ⟨⟨h1.1, h2.1, h3, h4⟩, fun i x h => h.elim (h1.2 i x) (h2.2 i x)⟩

theorem typed_ite {w : Nat} {c t f : Term} :
    (ite w c t f).Typed V ↔
      c.Typed V ∧ t.Typed V ∧ f.Typed V ∧ c.width = 1 ∧ t.width = w ∧ f.width = w := by
  constructor
  · rintro ⟨⟨h1, h2, h3, h4⟩, hv⟩
    exact ⟨⟨h1, fun i x h => hv i x (.inl h)⟩, ⟨h2, fun i x h => hv i x (.inr (.inl h))⟩,
      ⟨h3, fun i x h => hv i x (.inr (.inr h))⟩, h4⟩
  · rintro ⟨h1, h2, h3, h4⟩
    exact ⟨⟨h1.1, h2.1, h3.1, h4⟩, fun i x h => h.elim (h1.2 i x) (Or.elim · (h2.2 i x) (h3.2 i x))⟩

theorem typed_equal {a b : Term} :
    (equal a b).Typed V ↔ a.Typed V ∧ b.Typed V ∧ a.width = b.width := by
  constructor
  · rintro ⟨⟨h1, h2, h3⟩, hv⟩
    exact ⟨⟨h1, fun i x h => hv i x (.inl h)⟩, ⟨h2, fun i x h => hv i x (.inr h)⟩, h3⟩
  · rintro ⟨h1, h2, h3⟩
    exact ⟨⟨h1.1, h2.1, h3⟩, fun i x h => h.elim (h1.2 i x) (h2.2 i x)⟩

theorem Typed.mono {t : Term} (h : t.Typed V) (hV : ∀ id w, t.Mentions id w → V id w → V' id w) :
    t.Typed V' :=
  ⟨h.wellTyped, fun id w hm => hV id w hm (h.vars id w hm)⟩

/-! ### The denoted word -/

theorem WellTyped.eval_lt {t : Term} (h : t.WellTyped) (ρ : Assignment) :
    t.eval ρ < Word.count t.width := by
  cases t with
  | const w v => exact h.2.2
  | var w id => exact Word.truncate_lt _ _
  | binary op w a b => exact Word.binary_lt _ _ _ _
  | invert w a => exact Word.invert_lt _ _
  | slice w a lo =>
    have := Word.slice_lt (a.eval ρ) lo (lo + w)
    rwa [Nat.add_sub_cancel_left] at this
  | concat w lo hi =>
    obtain ⟨-, -, hw, hmax⟩ := h
    simp only [eval, width, hw]
    exact Word.concat_lt _ _ (hw ▸ hmax)
  | ite w c t f => exact Word.ite_lt _ _ _ _
  | equal a b =>
    simp only [eval, width]
    split <;> decide

theorem Typed.eval_lt {t : Term} (h : t.Typed V) (ρ : Assignment) :
    t.eval ρ < Word.count t.width := h.wellTyped.eval_lt ρ

theorem eval_of_const? {t : Term} {n : Nat} (h : t.const? = some n) (ρ : Assignment) :
    t.eval ρ = n := by
  cases t with
  | const w v => exact Option.some.inj h
  | _ => cases h

/-- Assignments that agree on the variables of a term give it one word. -/
theorem eval_congr {ρ ρ' : Assignment} {t : Term} (h : ∀ id w, t.Mentions id w → ρ id = ρ' id) :
    t.eval ρ = t.eval ρ' := by
  induction t with
  | const w v => rfl
  | var w id => simp only [eval, h id w ⟨rfl, rfl⟩]
  | binary op w a b iha ihb =>
    simp only [eval, iha fun i x hm => h i x (.inl hm), ihb fun i x hm => h i x (.inr hm)]
  | invert w a ih => simp only [eval, ih h]
  | slice w a lo ih => simp only [eval, ih h]
  | concat w lo hi ihl ihh =>
    simp only [eval, ihl fun i x hm => h i x (.inl hm), ihh fun i x hm => h i x (.inr hm)]
  | ite w c t f ihc iht ihf =>
    simp only [eval, ihc fun i x hm => h i x (.inl hm), iht fun i x hm => h i x (.inr (.inl hm)),
      ihf fun i x hm => h i x (.inr (.inr hm))]
  | equal a b iha ihb =>
    simp only [eval, iha fun i x hm => h i x (.inl hm), ihb fun i x hm => h i x (.inr hm)]

/-- A typed term of width `w` that denotes the word `f ρ` under every assignment `ρ`. -/
structure Denotes (V : Widths) (w : Nat) (f : Assignment → Nat) (t : Term) : Prop where
  typed : t.Typed V
  width : t.width = w
  eval : ∀ ρ, t.eval ρ = f ρ

theorem Denotes.of_typed {t : Term} (h : t.Typed V) : t.Denotes V t.width t.eval :=
  ⟨h, rfl, fun _ => rfl⟩

section

variable {w : Nat} {f g : Assignment → Nat} {t : Term}

theorem Denotes.congr (h : t.Denotes V w f) (hfg : ∀ ρ, f ρ = g ρ) : t.Denotes V w g :=
  ⟨h.typed, h.width, fun ρ => (h.eval ρ).trans (hfg ρ)⟩

theorem Denotes.lt (h : t.Denotes V w f) (ρ : Assignment) : f ρ < Word.count w := by
  rw [← h.eval, ← h.width]
  exact h.typed.eval_lt ρ

theorem Denotes.pos (h : t.Denotes V w f) : 0 < w := h.width ▸ h.typed.width_pos

theorem Denotes.le (h : t.Denotes V w f) : w ≤ maxBits := h.width ▸ h.typed.width_le

theorem Denotes.const? (h : t.Denotes V w f) {n : Nat} (hc : t.const? = some n) (ρ : Assignment) :
    f ρ = n := (h.eval ρ).symm.trans (eval_of_const? hc ρ)

end

end Term
end Lockstep
