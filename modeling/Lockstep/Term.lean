/-
# Bit-vector terms

A `Term` is an expression over numbered variables that denotes a word of its
`width`. Terms are shared: the same term may stand at many places of another,
so that a small graph can be a very large tree. Therefore a term carries its
`nodeCount`, and two terms are compared by their place in memory first.

Key definitions: `Term`, `Term.width`, `Term.nodeCount`, `Term.const?`,
`Term.vars`.
-/
import Lockstep.Word

namespace Lockstep

/-- The largest node count that is kept; a larger one stays at it. -/
def nodeLimit : Nat := Word.weight 64 - 1

/-- Expressions over words. A slice takes its width of bits from a position of
its argument, `concat` puts its second part above its first, `ite` decides by
a one-bit condition, and `equal` is one bit wide. -/
inductive Term where
  | const (width value : Nat)
  | var (width id : Nat)
  | binary (op : BinaryOp) (width : Nat) (a b : Term)
  | invert (width : Nat) (a : Term)
  | slice (width : Nat) (arg : Term) (lo : Nat)
  | concat (width : Nat) (lo hi : Term)
  | ite (width : Nat) (cond t f : Term)
  | equal (a b : Term)
with
  /-- The size of the term as a tree, kept at `nodeLimit` when it is larger. -/
  @[computed_field] nodeCount : Term → Nat
    | .const .. => 1
    | .var .. => 1
    | .binary _ _ a b => min nodeLimit (nodeCount a + nodeCount b + 1)
    | .invert _ a => min nodeLimit (nodeCount a + 1)
    | .slice _ a _ => min nodeLimit (nodeCount a + 1)
    | .concat _ a b => min nodeLimit (nodeCount a + nodeCount b + 1)
    | .ite _ c a b => min nodeLimit (nodeCount c + nodeCount a + nodeCount b + 1)
    | .equal a b => min nodeLimit (nodeCount a + nodeCount b + 1)

namespace Term

/-! ### Equality -/

/-- Are two terms equal? Terms at one place in memory are, terms of different
node counts are not, and all others are compared part by part. -/
def decEq (s t : Term) : Decidable (s = t) :=
  withPtrEqDecEq s t fun _ =>
    if counts : s.nodeCount = t.nodeCount then
      match s, t with
      | const w v, const w' v' => decidable_of_iff (w = w' ∧ v = v') (by simp)
      | var w i, var w' i' => decidable_of_iff (w = w' ∧ i = i') (by simp)
      | binary op w a b, binary op' w' a' b' =>
        if h : op = op' ∧ w = w' then
          match decEq a a' with
          | isTrue ha =>
            match decEq b b' with
            | isTrue hb => isTrue (by simp [h, ha, hb])
            | isFalse hb => isFalse (by simp [hb])
          | isFalse ha => isFalse (by simp [ha])
        else isFalse (by simp only [binary.injEq]; exact fun e => h ⟨e.1, e.2.1⟩)
      | invert w a, invert w' a' =>
        if h : w = w' then
          match decEq a a' with
          | isTrue ha => isTrue (by simp [h, ha])
          | isFalse ha => isFalse (by simp [ha])
        else isFalse (by simp [h])
      | slice w a lo, slice w' a' lo' =>
        if h : w = w' ∧ lo = lo' then
          match decEq a a' with
          | isTrue ha => isTrue (by simp [h, ha])
          | isFalse ha => isFalse (by simp [ha])
        else isFalse (by simp only [slice.injEq]; exact fun e => h ⟨e.1, e.2.2⟩)
      | concat w a b, concat w' a' b' =>
        if h : w = w' then
          match decEq a a' with
          | isTrue ha =>
            match decEq b b' with
            | isTrue hb => isTrue (by simp [h, ha, hb])
            | isFalse hb => isFalse (by simp [hb])
          | isFalse ha => isFalse (by simp [ha])
        else isFalse (by simp [h])
      | ite w c a b, ite w' c' a' b' =>
        if h : w = w' then
          match decEq c c' with
          | isTrue hc =>
            match decEq a a' with
            | isTrue ha =>
              match decEq b b' with
              | isTrue hb => isTrue (by simp [h, hc, ha, hb])
              | isFalse hb => isFalse (by simp [hb])
            | isFalse ha => isFalse (by simp [ha])
          | isFalse hc => isFalse (by simp [hc])
        else isFalse (by simp [h])
      | equal a b, equal a' b' =>
        match decEq a a' with
        | isTrue ha =>
          match decEq b b' with
          | isTrue hb => isTrue (by simp [ha, hb])
          | isFalse hb => isFalse (by simp [hb])
        | isFalse ha => isFalse (by simp [ha])
      | const .., var .. | const .., binary .. | const .., invert .. | const .., slice ..
      | const .., concat .. | const .., ite .. | const .., equal ..
      | var .., const .. | var .., binary .. | var .., invert .. | var .., slice ..
      | var .., concat .. | var .., ite .. | var .., equal ..
      | binary .., const .. | binary .., var .. | binary .., invert .. | binary .., slice ..
      | binary .., concat .. | binary .., ite .. | binary .., equal ..
      | invert .., const .. | invert .., var .. | invert .., binary .. | invert .., slice ..
      | invert .., concat .. | invert .., ite .. | invert .., equal ..
      | slice .., const .. | slice .., var .. | slice .., binary .. | slice .., invert ..
      | slice .., concat .. | slice .., ite .. | slice .., equal ..
      | concat .., const .. | concat .., var .. | concat .., binary .. | concat .., invert ..
      | concat .., slice .. | concat .., ite .. | concat .., equal ..
      | ite .., const .. | ite .., var .. | ite .., binary .. | ite .., invert ..
      | ite .., slice .. | ite .., concat .. | ite .., equal ..
      | equal .., const .. | equal .., var .. | equal .., binary .. | equal .., invert ..
      | equal .., slice .. | equal .., concat .. | equal .., ite .. => isFalse nofun
    else isFalse fun e => counts (congrArg nodeCount e)

instance : DecidableEq Term := decEq

/-! ### Parts -/

/-- The width of the words that a term denotes. -/
def width : Term → Nat
  | const w _ => w
  | var w _ => w
  | binary _ w _ _ => w
  | invert w _ => w
  | slice w _ _ => w
  | concat w _ _ => w
  | ite w _ _ _ => w
  | equal _ _ => 1

def const? : Term → Option Nat
  | const _ v => some v
  | _ => none

/-- A list of variables, by increasing number, with the width of one of them set. -/
def setVar (id width : Nat) : List (Nat × Nat) → List (Nat × Nat)
  | [] => [(id, width)]
  | (i, w) :: vs =>
    if id < i then (id, width) :: (i, w) :: vs
    else if id = i then (id, width) :: vs
    else (i, w) :: setVar id width vs

/-- The variables of a term added to a list of variables. -/
def addVars : Term → List (Nat × Nat) → List (Nat × Nat)
  | const _ _, vs => vs
  | var w i, vs => setVar i w vs
  | binary _ _ a b, vs => addVars b (addVars a vs)
  | invert _ a, vs => addVars a vs
  | slice _ a _, vs => addVars a vs
  | concat _ lo hi, vs => addVars hi (addVars lo vs)
  | ite _ c t f, vs => addVars f (addVars t (addVars c vs))
  | equal a b, vs => addVars b (addVars a vs)

/-- The variables of a term with their widths, by increasing number. -/
def vars (t : Term) : List (Nat × Nat) := addVars t []

end Term

end Lockstep
