/-
# Checked operations on values

The operations on values with ranges that are computed in 64 bits: where a bound
does not fit the program ends, and there is no value and no fault either.

Key definitions: `Value.Checked.assemble`, `Value.Checked.binary`, `Value.Checked.invert`,
`Value.Checked.slice`, `Value.Checked.concat`, `Value.Checked.ite`, `Value.Checked.isZero`.
-/
import Lockstep.Interval.Checked
import Lockstep.Value.Operations

namespace Lockstep.Value.Checked

open Interval (long)

/-- The value of the given width with the active ones of the given parts; an active range is
computed first. -/
def assemble (active : DomainSet) (bits : Nat) (concrete : Option Nat)
    (interval : Option (Option Interval)) (symbolic : Option Term) :
    Option (Except Fault Value) :=
  match active.only .interval interval with
  | none => some (Value.assemble active bits concrete none symbolic)
  | some run => run.map fun i => Value.assemble active bits concrete (some i) symbolic

def binary (active : DomainSet) (op : BinaryOp) (a b : Value) : Option (Except Fault Value) :=
  match sameWidth op.label a b with
  | .error f => some (.error f)
  | .ok bits =>
    assemble active bits
      (do some (Word.binary op bits (← a.known?) (← b.known?)))
      (do some (Interval.Checked.binary long op bits (← a.interval?) (← b.interval?)))
      (do some (Term.mkBinary op bits (← a.symbolic?) (← b.symbolic?)))

def invert (active : DomainSet) (a : Value) : Option (Except Fault Value) :=
  assemble active a.bits
    (do some (Word.invert a.bits (← a.known?)))
    (do some (Interval.Checked.invert long a.bits (← a.interval?)))
    (do some (Term.mkInvert a.bits (← a.symbolic?)))

/-- The bits from `lo` up to `hi`. -/
def slice (active : DomainSet) (a : Value) (lo hi : Nat) : Option (Except Fault Value) :=
  if hi ≤ lo ∨ a.bits < hi then some (.error (.sliceRange lo hi a.bits))
  else
    assemble active (hi - lo)
      (do some (Word.slice (← a.known?) lo hi))
      (do some (Interval.Checked.slice long a.bits (← a.interval?) lo hi))
      (do some (Term.mkSlice a.bits (← a.symbolic?) lo hi))

/-- The first value below the second. -/
def concat (active : DomainSet) (lo hi : Value) : Option (Except Fault Value) :=
  match checkWidth (lo.bits + hi.bits) with
  | .error f => some (.error f)
  | .ok () =>
    assemble active (lo.bits + hi.bits)
      (do some (Word.concat (← lo.known?) lo.bits (← hi.known?) hi.bits))
      (do some (Interval.Checked.concat long (← lo.interval?) lo.bits (← hi.interval?) hi.bits))
      (do some (Term.mkConcat (← lo.symbolic?) lo.bits (← hi.symbolic?) hi.bits))

/-- One of two values, by a one-bit condition. -/
def ite (active : DomainSet) (cond t f : Value) : Option (Except Fault Value) :=
  if cond.bits ≠ 1 then some (.error (.conditionWidth cond.bits))
  else
    match sameWidth "ite" t f with
    | .error fault => some (.error fault)
    | .ok bits =>
      assemble active bits
        (do some (Word.ite bits (← cond.known?) (← t.known?) (← f.known?)))
        (do some (Interval.Checked.ite long bits (← cond.interval?) (← t.interval?)
          (← f.interval?)))
        (do some (Term.mkIte bits (← cond.symbolic?) (← t.symbolic?) (← f.symbolic?)))

/-- The bit that tells whether a value is zero. -/
def isZero (active : DomainSet) (a : Value) : Option (Except Fault Value) :=
  assemble active 1
    (do some (Word.isZero a.bits (← a.known?)))
    (do some (Interval.Checked.isZero long a.bits (← a.interval?)))
    (do some (Term.mkIsZero a.bits (← a.symbolic?)))

end Lockstep.Value.Checked
