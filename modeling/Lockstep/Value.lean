/-
# Values

A value of a width holds what each domain knows of one number: the number, a
range it lies in, a term that denotes it. Each part may be missing.

Key definitions: `Value`, `Value.isValid`, `Value.restrict`, `Value.text`.
-/
import Lockstep.Domain
import Lockstep.Hexadecimal
import Lockstep.Interval
import Lockstep.Term.Text

namespace Lockstep

/-- What the domains know of one number. -/
@[ext] structure Value where
  bits : Nat
  concrete : Option Nat := none
  interval : Option Interval := none
  symbolic : Option Term := none
  deriving DecidableEq

namespace Value

/-- A value of which nothing is known. -/
def empty (bits : Nat) : Value := { bits }

/-- The value of a term that is known to be a number now, in any range. -/
def seeded (n : Nat) (t : Term) : Value where
  bits := t.width
  concrete := some (Word.truncate t.width n)
  interval := some (.top t.width)
  symbolic := some t

/-- The value with its number set to the low bits of `n`. -/
def setConcrete (v : Value) (n : Nat) : Value :=
  { v with concrete := some (Word.truncate v.bits n) }

/-- Does a domain know anything of the value? -/
def isValid (v : Value) : Domain → Bool
  | .concrete => v.concrete.isSome
  | .interval => v.interval.isSome
  | .symbolic => v.symbolic.isSome

/-- The domains that know something of the value. -/
def validDomains (v : Value) : DomainSet :=
  ⟨v.concrete.isSome, v.interval.isSome, v.symbolic.isSome⟩

/-- The value without the part of one domain. -/
def invalidate (v : Value) : Domain → Value
  | .concrete => { v with concrete := none }
  | .interval => { v with interval := none }
  | .symbolic => { v with symbolic := none }

/-- The value with the parts of the given domains only. -/
def restrict (v : Value) (keep : DomainSet) : Value where
  bits := v.bits
  concrete := keep.only .concrete v.concrete
  interval := keep.only .interval v.interval
  symbolic := keep.only .symbolic v.symbolic

/-- The value with the parts of the given domains taken from another one. -/
def takeParts (v update : Value) (taken : DomainSet) : Value where
  bits := v.bits
  concrete := if taken.contains .concrete then update.concrete else v.concrete
  interval := if taken.contains .interval then update.interval else v.interval
  symbolic := if taken.contains .symbolic then update.symbolic else v.symbolic

/-- A part as text, two hyphens if it is missing. -/
def partText {α : Type} (f : α → String) : Option α → String
  | none => "--"
  | some a => f a

/-- The text of a value: each part after the name of its domain. -/
def text (v : Value) : String :=
  "concrete=" ++ partText hex v.concrete ++ " interval=" ++ partText Interval.text v.interval ++
    " symbolic=" ++ partText Term.text v.symbolic

/-- The text of a value with its width. -/
def textWithWidth (v : Value) : String :=
  "MultiValue<" ++ toString v.bits ++ ">(" ++ v.text ++ ")"

/-! ### Known numbers -/

/-- The number of a value that any domain pins down. -/
def known? (v : Value) : Option Nat :=
  v.concrete.or ((v.interval.bind (·.singleton? v.bits)).or (v.symbolic.bind Term.const?))

/-- The range of a value, or the range of its known number. -/
def interval? (v : Value) : Option Interval :=
  v.interval.or (v.known?.map (Interval.exact v.bits))

/-- The term of a value, or the constant of its known number. A range of
several numbers has no term. -/
def symbolic? (v : Value) : Option Term :=
  v.symbolic.or (v.known?.map fun n => .const v.bits (Word.truncate v.bits n))

/-! ### Parts -/

@[simp] theorem bits_restrict (v : Value) (s : DomainSet) : (v.restrict s).bits = v.bits := rfl

@[simp] theorem bits_takeParts (v update : Value) (s : DomainSet) :
    (v.takeParts update s).bits = v.bits := rfl

theorem contains_validDomains (v : Value) (d : Domain) :
    v.validDomains.contains d = v.isValid d := by cases d <;> rfl

theorem restrict_restrict (v : Value) (s t : DomainSet) :
    (v.restrict s).restrict t = v.restrict (s.inter t) := by
  obtain ⟨sc, si, sy⟩ := s
  obtain ⟨tc, ti, ty⟩ := t
  cases sc <;> cases si <;> cases sy <;> cases tc <;> cases ti <;> cases ty <;> rfl

end Value

end Lockstep
