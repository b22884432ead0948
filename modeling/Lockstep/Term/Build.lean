/-
# Building terms

Each `mk` function builds a term for an operation and folds what can be seen
from the top of its operands: constants are computed, neutral and absorbing
constants and equal operands disappear, a slice goes through slices and into
the half of a concatenation that holds it, and two adjacent slices of one term
are glued together again.

Key definitions: `Term.number`, `Term.mkBinary`, `Term.mkInvert`, `Term.mkSlice`,
`Term.mkConcat`, `Term.mkIte`, `Term.mkEqual`, `Term.mkIsZero`.
-/
import Lockstep.Term

namespace Lockstep.Term

/-- The constant of a width that agrees with a number on its low bits. -/
def number (width n : Nat) : Term := const width (Word.truncate width n)

/-- A two-operand operation on terms that are not both constants. -/
def mkBinaryOpen (op : BinaryOp) (width : Nat) (a b : Term) : Term :=
  match op with
  | .add =>
    if a.const? = some 0 then b
    else if b.const? = some 0 then a
    else binary .add width a b
  | .sub =>
    if a = b then number width 0
    else if b.const? = some 0 then a
    else binary .sub width a b
  | .and =>
    if a.const? = some 0 ∨ b.const? = some 0 then number width 0
    else if a.const? = some (Word.max width) then b
    else if b.const? = some (Word.max width) then a
    else if a = b then a
    else binary .and width a b
  | .or =>
    if a.const? = some 0 then b
    else if b.const? = some 0 then a
    else if a.const? = some (Word.max width) ∨ b.const? = some (Word.max width) then
      number width (Word.max width)
    else if a = b then a
    else binary .or width a b
  | .xor =>
    if a = b then number width 0
    else if a.const? = some 0 then b
    else if b.const? = some 0 then a
    else binary .xor width a b

def mkBinary (op : BinaryOp) (width : Nat) (a b : Term) : Term :=
  match a.const?, b.const? with
  | some m, some n => number width (Word.binary op width m n)
  | _, _ => mkBinaryOpen op width a b

def mkInvert (width : Nat) : Term → Term
  | const _ v => number width (Word.invert width v)
  | invert _ a => a
  | a => invert width a

/-- The bits from `lo` up to `hi` of a term of the given width. -/
def mkSlice (bits : Nat) (a : Term) (lo hi : Nat) : Term :=
  match a with
  | const _ v => number (hi - lo) (Word.slice v lo hi)
  | slice w arg base =>
    if lo = 0 ∧ hi = bits then slice w arg base
    else mkSlice arg.width arg (base + lo) (base + hi)
  | concat w low high =>
    if lo = 0 ∧ hi = bits then concat w low high
    else if hi ≤ low.width then mkSlice low.width low lo hi
    else if low.width ≤ lo then mkSlice high.width high (lo - low.width) (hi - low.width)
    else slice (hi - lo) (concat w low high) lo
  | a => if lo = 0 ∧ hi = bits then a else slice (hi - lo) a lo

/-- The argument and the start of a slice. -/
def slice? : Term → Option (Term × Nat)
  | slice _ arg lo => some (arg, lo)
  | _ => none

/-- The first term below the second. -/
def mkConcat (lo : Term) (loBits : Nat) (hi : Term) (hiBits : Nat) : Term :=
  let width := loBits + hiBits
  match lo.const?, hi.const? with
  | some m, some n => number width (Word.concat m loBits n hiBits)
  | _, _ =>
    match lo.slice?, hi.slice? with
    | some (a, start), some (b, next) =>
      if a = b ∧ next = start + loBits then mkSlice a.width a start (start + width)
      else concat width lo hi
    | _, _ => concat width lo hi

/-- A choice by the low bit of the condition. -/
def mkIte (width : Nat) (cond t f : Term) : Term :=
  match cond.const? with
  | some n => if n % 2 = 1 then t else f
  | none => if t = f then t else ite width cond t f

/-- The bit that tells whether two terms are equal. -/
def mkEqual (a b : Term) : Term :=
  match a.const?, b.const? with
  | some m, some n => number 1 (if m = n then 1 else 0)
  | _, _ => if a = b then number 1 1 else equal a b

/-- The bit that tells whether a term is zero. -/
def mkIsZero (width : Nat) (a : Term) : Term := mkEqual a (number width 0)

end Lockstep.Term
