/-
# Numbers in a JSON text

A number is kept as it is written. It is an integer only without point and
exponent. Read as a double it is a significand of at most 64 bits, made of the
digits that fit, times a power of ten; both factors are rounded to doubles, and
so is their product.

Key definitions: `Json.Number`, `Json.Number.nat?`, `Json.Number.int?`,
`Json.Number.parts`, `Json.Number.significand`, `Json.Number.overflows`.
-/
import Lockstep.Double

namespace Lockstep

/-- A number by its text: sign, digits read as one number, how many of them
stand after the point, and the exponent if one is written. -/
structure Json.Number where
  negative : Bool := false
  digits : Nat
  places : Nat := 0
  exponent : Option Int := none
  deriving DecidableEq, Repr

namespace Json.Number

/-! ### Integers -/

/-- Is the number written with neither point nor exponent? -/
def isInteger (n : Number) : Bool := n.places = 0 && n.exponent.isNone

/-- The value of a number written as an integer without a sign. -/
def nat? (n : Number) : Option Nat :=
  if n.isInteger && !n.negative then some n.digits else none

/-- The value of a number written as an integer; a negative zero is no integer. -/
def int? (n : Number) : Option Int :=
  if !n.isInteger then none
  else if !n.negative then some n.digits
  else if n.digits = 0 then none
  else some (-n.digits)

/-! ### Doubles -/

/-- The digits before the point and those after it. -/
def parts (n : Number) : List Char × List Char :=
  let ds := Nat.toDigits 10 n.digits
  let ds := List.replicate (n.places + 1 - ds.length) '0' ++ ds
  (ds.take (ds.length - n.places), ds.drop (ds.length - n.places))

/-- The digits of a list up to the first that does not fit behind a number in
64 bits: the number with them, and how many they are. -/
def takeDigits (n : Nat) : List Char → Nat × Nat
  | [] => (n, 0)
  | d :: ds =>
    if 10 * n + (d.toNat - 48) < 0x10000000000000000 then
      let (m, taken) := takeDigits (10 * n + (d.toNat - 48)) ds
      (m, taken + 1)
    else (n, 0)

/-- The significand of a number and the power of ten that it is scaled by. A
digit before the point that is not taken scales by ten; one after it is lost. -/
def significand (n : Number) : Nat × Int :=
  let (whole, fraction) := n.parts
  let (m, wholeTaken) := takeDigits 0 whole
  let (m, fractionTaken) := takeDigits m fraction
  (m, n.exponent.getD 0 + (whole.length - wholeTaken : Nat) - fractionTaken)

/-- Is the number too large for a double? Only one that is scaled up can be,
and a power of ten above 308 is itself too large. -/
def overflows (n : Number) : Bool :=
  let (m, scale) := n.significand
  if m = 0 ∨ scale < 0 then false
  else if 308 < scale then true
  else Double.productOverflows m (Nat.pow 10 scale.toNat)

end Json.Number

end Lockstep
