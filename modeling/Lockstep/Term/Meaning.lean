/-
# The meaning of a term

Under an assignment of numbers to variables a term denotes a word. A term is
well typed if its parts have the widths that its operation asks for.

Key definitions: `Assignment`, `Term.eval`, `Term.WellTyped`, `Term.treeSize`,
`Term.Mentions`.
-/
import Lockstep.Term

namespace Lockstep

/-- A number for every variable; a variable denotes its low bits. -/
abbrev Assignment := Nat → Nat

namespace Term

/-- The word that a term denotes. -/
def eval (ρ : Assignment) : Term → Nat
  | const _ v => v
  | var w i => Word.truncate w (ρ i)
  | binary op w a b => Word.binary op w (eval ρ a) (eval ρ b)
  | invert w a => Word.invert w (eval ρ a)
  | slice w a lo => Word.slice (eval ρ a) lo (lo + w)
  | concat _ lo hi => Word.concat (eval ρ lo) lo.width (eval ρ hi) hi.width
  | ite w c t f => Word.ite w (eval ρ c) (eval ρ t) (eval ρ f)
  | equal a b => if eval ρ a = eval ρ b then 1 else 0

/-- Do the parts have the widths that each operation asks for? -/
def WellTyped : Term → Prop
  | const w v => 0 < w ∧ w ≤ maxBits ∧ v < Word.count w
  | var w _ => 0 < w ∧ w ≤ maxBits
  | binary _ w a b => a.WellTyped ∧ b.WellTyped ∧ a.width = w ∧ b.width = w
  | invert w a => a.WellTyped ∧ a.width = w
  | slice w a lo => a.WellTyped ∧ 0 < w ∧ lo + w ≤ a.width
  | concat w lo hi =>
    lo.WellTyped ∧ hi.WellTyped ∧ w = lo.width + hi.width ∧ w ≤ maxBits
  | ite w c t f =>
    c.WellTyped ∧ t.WellTyped ∧ f.WellTyped ∧ c.width = 1 ∧ t.width = w ∧ f.width = w
  | equal a b => a.WellTyped ∧ b.WellTyped ∧ a.width = b.width

/-- The number of nodes of a term as a tree. -/
def treeSize : Term → Nat
  | const _ _ => 1
  | var _ _ => 1
  | binary _ _ a b => treeSize a + treeSize b + 1
  | invert _ a => treeSize a + 1
  | slice _ a _ => treeSize a + 1
  | concat _ lo hi => treeSize lo + treeSize hi + 1
  | ite _ c t f => treeSize c + treeSize t + treeSize f + 1
  | equal a b => treeSize a + treeSize b + 1

/-- Does the variable of a number stand in the term at a width? -/
def Mentions (id width : Nat) : Term → Prop
  | const _ _ => False
  | var w i => i = id ∧ w = width
  | binary _ _ a b => a.Mentions id width ∨ b.Mentions id width
  | invert _ a => a.Mentions id width
  | slice _ a _ => a.Mentions id width
  | concat _ lo hi => lo.Mentions id width ∨ hi.Mentions id width
  | ite _ c t f => c.Mentions id width ∨ t.Mentions id width ∨ f.Mentions id width
  | equal a b => a.Mentions id width ∨ b.Mentions id width

/-- The kept node count is the size as a tree, cut off at the limit. -/
theorem nodeCount_eq (t : Term) : t.nodeCount = min nodeLimit t.treeSize := by
  induction t with
  | const | var => rfl
  | invert | slice => simp_all [nodeCount, treeSize]; omega
  | binary | concat | equal | ite => simp_all [nodeCount, treeSize]; omega

end Term

end Lockstep
