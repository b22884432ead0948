/-
# Linear forms

A linear form is a sum of multiples of atoms and a constant, modulo two to a
width. Sums, differences and complements reduce to one; every other term is an
atom, known by its text. A term whose form has no atom is that constant under
every assignment, and two terms of one form are equal under every assignment.

Key definitions: `LinearForm`, `LinearForm.addScaled`, `Term.linearForm`,
`Term.linearVerdict`.
-/
import Lockstep.Solver

namespace Lockstep

/-- Atoms with their coefficients, by increasing text, and a constant. -/
@[ext] structure LinearForm where
  bits : Nat
  terms : List (String × Nat) := []
  constant : Nat := 0
  deriving DecidableEq, Repr

namespace LinearForm

/-- A number modulo two to a width. -/
def wrap (bits n : Nat) : Nat := n % Word.weight bits

/-- The terms with a multiple of one atom added; coefficients wrap, and an
atom whose coefficient becomes zero goes. -/
def addAtom (bits : Nat) (atom : String) (n : Nat) : List (String × Nat) → List (String × Nat)
  | [] => if wrap bits n = 0 then [] else [(atom, wrap bits n)]
  | (a, c) :: ts =>
    if atom < a then
      if wrap bits n = 0 then (a, c) :: ts
      else (atom, wrap bits n) :: (a, c) :: ts
    else if atom = a then
      if wrap bits (c + n) = 0 then ts else (a, wrap bits (c + n)) :: ts
    else (a, c) :: addAtom bits atom n ts

/-- A multiple of one form added to another. -/
def addScaled (f g : LinearForm) (k : Nat) : LinearForm where
  bits := f.bits
  terms := g.terms.foldl (fun ts (atom, c) => addAtom f.bits atom (c * k) ts) f.terms
  constant := wrap f.bits (f.constant + g.constant * k)

/-- The form with every sign changed. -/
def negate (f : LinearForm) : LinearForm :=
  addScaled { bits := f.bits } f (Word.weight f.bits - 1)

end LinearForm

namespace Term

/-- The linear form of a term; the complement of `x` is `-x - 1`. -/
def linearForm : Term → LinearForm
  | const w v => { bits := w, constant := v }
  | binary .add _ a b => (linearForm a).addScaled (linearForm b) 1
  | binary .sub _ a b => (linearForm a).addScaled (linearForm b).negate 1
  | invert _ a =>
    let f := (linearForm a).negate
    { f with constant := LinearForm.wrap f.bits (f.constant + (Word.weight f.bits - 1)) }
  | t => { bits := t.width, terms := [(t.text, 1)] }

/-- Are both operands of a term that is an exclusive or of one linear form? -/
def isXorOfEqualForms : Term → Bool
  | binary .xor _ a b => a.linearForm = b.linearForm
  | _ => false

/-- Is the term zero, as far as linear forms tell? -/
def linearVerdict (t : Term) : Verdict :=
  if t.isXorOfEqualForms then .zero
  else if t.linearForm.terms = [] then .ofNumber t.linearForm.constant
  else .unknown

end Term

end Lockstep
