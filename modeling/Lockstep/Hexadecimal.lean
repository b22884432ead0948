/-
# Hexadecimal numbers

Key definitions: `hex`, `address`.
-/

namespace Lockstep

/-- A number in hexadecimal with at least the given number of digits, after `0x`. -/
def hexPadded (least n : Nat) : String :=
  let ds := Nat.toDigits 16 n
  "0x" ++ String.ofList (List.replicate (least - ds.length) '0' ++ ds)

def hex (n : Nat) : String := hexPadded 1 n

/-- An address: eight hexadecimal digits. -/
def hexAddress (n : Nat) : String := hexPadded 8 n

end Lockstep
