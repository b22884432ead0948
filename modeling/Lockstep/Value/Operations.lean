/-
# Operations on values

An operation runs in every active domain that has its operands or can build
them from another domain; the other parts of the result are missing.

Key definitions: `Value.number`, `Value.undefined`, `Value.binary`, `Value.invert`,
`Value.slice`, `Value.concat`, `Value.ite`, `Value.isZero`.
-/
import Lockstep.Term.Build
import Lockstep.Value.Bridge

namespace Lockstep.Value

/-- The value of the given width with the active ones of the given parts. -/
@[macro_inline] def assemble (active : DomainSet) (bits : Nat) (concrete : Option Nat)
    (interval : Option Interval) (symbolic : Option Term) : Except Fault Value :=
  let v : Value := { bits, concrete := active.only .concrete concrete,
                     interval := active.only .interval interval }
  match active.only .symbolic symbolic with
  | none => pure v
  | some t => v.setSymbolic t

def number (active : DomainSet) (bits n : Nat) : Except Fault Value := do
  checkWidth bits
  assemble active bits (some (Word.truncate bits n)) (some (.exact bits n)) (some (.number bits n))

/-- Any number: every range, a new variable, and no number at all. -/
def undefined {σ : Type} (active : DomainSet) (bits : Nat) :
    ExceptT Fault (SymbolicM σ) Value := do
  checkWidth bits
  let v : Value := { bits, interval := active.only .interval (some (.top bits)) }
  if active.contains .symbolic then v.setSymbolic (← (Symbolic.fresh bits : SymbolicM σ Term))
  else pure v

/-- The common width of two operands. -/
def sameWidth (operation : String) (a b : Value) : Except Fault Nat :=
  if a.bits = b.bits then pure a.bits else throw (.operandWidths operation a.bits b.bits)

def binary (active : DomainSet) (op : BinaryOp) (a b : Value) : Except Fault Value := do
  let bits ← sameWidth op.label a b
  assemble active bits
    (do some (Word.binary op bits (← a.known?) (← b.known?)))
    (do some (Interval.binary op bits (← a.interval?) (← b.interval?)))
    (do some (Term.mkBinary op bits (← a.symbolic?) (← b.symbolic?)))

def invert (active : DomainSet) (a : Value) : Except Fault Value :=
  assemble active a.bits
    (do some (Word.invert a.bits (← a.known?)))
    (do some (Interval.invert a.bits (← a.interval?)))
    (do some (Term.mkInvert a.bits (← a.symbolic?)))

/-- The bits from `lo` up to `hi`. -/
def slice (a : Value) (active : DomainSet) (lo hi : Nat) : Except Fault Value := do
  if hi ≤ lo ∨ a.bits < hi then throw (.sliceRange lo hi a.bits)
  assemble active (hi - lo)
    (do some (Word.slice (← a.known?) lo hi))
    (do some (Interval.slice a.bits (← a.interval?) lo hi))
    (do some (Term.mkSlice a.bits (← a.symbolic?) lo hi))

/-- The first value below the second. -/
def concat (active : DomainSet) (lo hi : Value) : Except Fault Value := do
  checkWidth (lo.bits + hi.bits)
  assemble active (lo.bits + hi.bits)
    (do some (Word.concat (← lo.known?) lo.bits (← hi.known?) hi.bits))
    (do some (Interval.concat (← lo.interval?) lo.bits (← hi.interval?) hi.bits))
    (do some (Term.mkConcat (← lo.symbolic?) lo.bits (← hi.symbolic?) hi.bits))

/-- One of two values, by a one-bit condition. -/
def ite (active : DomainSet) (cond t f : Value) : Except Fault Value := do
  if cond.bits ≠ 1 then throw (.conditionWidth cond.bits)
  let bits ← sameWidth "ite" t f
  assemble active bits
    (do some (Word.ite bits (← cond.known?) (← t.known?) (← f.known?)))
    (do some (Interval.ite bits (← cond.interval?) (← t.interval?) (← f.interval?)))
    (do some (Term.mkIte bits (← cond.symbolic?) (← t.symbolic?) (← f.symbolic?)))

/-- The bit that tells whether a value is zero. -/
def isZero (active : DomainSet) (a : Value) : Except Fault Value :=
  assemble active 1
    (do some (Word.isZero a.bits (← a.known?)))
    (do some (Interval.isZero a.bits (← a.interval?)))
    (do some (Term.mkIsZero a.bits (← a.symbolic?)))

end Lockstep.Value
