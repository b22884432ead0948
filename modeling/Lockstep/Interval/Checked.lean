/-
# Checked operations on intervals

The operations on intervals once more, with a check at every number that they
compute: a run stops where a number does not fit. With `long` for the check
this is how the program computes, and where a run stops the program ends.

Key definitions: `Interval.computed`, `Interval.long`, `Interval.Checked.make`,
`Interval.Checked.binary`, `Interval.Checked.hull`.
-/
import Lockstep.Interval

namespace Lockstep
namespace Interval

/-- A number that is computed, where it fits. -/
def computed (fits : Int → Bool) (x : Int) : Option Int := if fits x then some x else none

/-- The numbers strictly between `-2 ^ 34` and `2 ^ 34`. -/
def narrow (x : Int) : Bool := -0x400000000 < x && x < 0x400000000

/-- The numbers of 64 bits, one of them for the sign. -/
def long (x : Int) : Bool := -0x8000000000000000 ≤ x && x < 0x8000000000000000

namespace Checked

variable (fits : Int → Bool)

def exact (bits n : Nat) : Option Interval := do
  let word ← computed fits (Word.truncate bits n)
  return ⟨word, word⟩

def top (bits : Nat) : Option Interval := do
  return ⟨0, ← computed fits (maxWord bits)⟩

def make (bits : Nat) (lo hi : Int) : Option Interval := do
  let m ← computed fits (modulus bits)
  if hi < lo then top fits bits
  else
    -- bounds out of order are not subtracted
    let span ← computed fits (hi - lo)
    if m ≤ span then top fits bits
    else
      let turns ← computed fits (hi / m)
      let shift ← computed fits (turns * m)
      return ⟨← computed fits (lo - shift), ← computed fits (hi - shift)⟩

def singleton? (i : Interval) (bits : Nat) : Option (Option Nat) :=
  if i.lo = i.hi then do
    let m ← computed fits (modulus bits)
    let word ← computed fits (i.lo % m)
    return some word.toNat
  else some none

def isCanonical (i : Interval) (bits : Nat) : Option Bool := do
  let greatest ← computed fits (maxWord bits)
  return 0 ≤ i.lo && i.hi ≤ greatest

def contains (i : Interval) (bits n : Nat) : Option Bool := do
  let m ← computed fits (modulus bits)
  let word ← computed fits (Word.truncate bits n)
  let turns ← computed fits (i.lo / m)
  let base ← computed fits (turns * m)
  let low ← computed fits (base + word)
  let next ← computed fits (base + m)
  let high ← computed fits (next + word)
  return (i.lo ≤ low && low ≤ i.hi) || (i.lo ≤ high && high ≤ i.hi)

def hull (i : Interval) (bits : Nat) (j : Interval) : Option Interval := do
  make fits bits (← computed fits (min i.lo j.lo)) (← computed fits (max i.hi j.hi))

def fillBelow (bound : Int) : Option Int :=
  if bound ≤ 0 then some 0
  else do
    let next ← computed fits (modulus (bound.toNat.log2 + 1))
    computed fits (next - 1)

/-- The bounds are computed only for two ranges that do not go through zero. -/
def bitwise (op : BinaryOp) (bits : Nat) (i j : Interval) (lo hi : Option Int) :
    Option Interval := do
  match ← singleton? fits i bits, ← singleton? fits j bits with
  | some a, some b => exact fits bits (Word.binary op bits a b)
  | _, _ =>
    let first ← isCanonical fits i bits
    let second ← isCanonical fits j bits
    if first && second then
      let greatest ← computed fits (maxWord bits)
      make fits bits (← lo) (← computed fits (min (← hi) greatest))
    else top fits bits

def binary (op : BinaryOp) (bits : Nat) (i j : Interval) : Option Interval :=
  match op with
  | .add => do make fits bits (← computed fits (i.lo + j.lo)) (← computed fits (i.hi + j.hi))
  | .sub => do make fits bits (← computed fits (i.lo - j.hi)) (← computed fits (i.hi - j.lo))
  | .and => bitwise fits .and bits i j (some 0) (computed fits (min i.hi j.hi))
  | .or =>
    bitwise fits .or bits i j (computed fits (max i.lo j.lo))
      (computed fits (max i.hi j.hi) >>= fillBelow fits)
  | .xor =>
    bitwise fits .xor bits i j (some 0) (computed fits (max i.hi j.hi) >>= fillBelow fits)

def invert (bits : Nat) (i : Interval) : Option Interval := do
  make fits bits (← computed fits (-1 - i.hi)) (← computed fits (-1 - i.lo))

def slice (bits : Nat) (i : Interval) (lo hi : Nat) : Option Interval := do
  match ← singleton? fits i bits with
  | some n => exact fits (hi - lo) (n >>> lo)
  | none =>
    if ← isCanonical fits i bits then
      let greatest ← computed fits (maxWord (hi - lo))
      if lo = 0 ∧ i.hi ≤ greatest then return i
      else if hi = bits then
        make fits (hi - lo) (← computed fits (i.lo / modulus lo))
          (← computed fits (i.hi / modulus lo))
      else top fits (hi - lo)
    else top fits (hi - lo)

def concat (lo : Interval) (loBits : Nat) (hi : Interval) (hiBits : Nat) : Option Interval := do
  let first ← isCanonical fits lo loBits
  let second ← isCanonical fits hi hiBits
  if first && second then
    let least ← computed fits (moveUp hi.lo loBits)
    let least ← computed fits (least + lo.lo)
    let greatest ← computed fits (moveUp hi.hi loBits)
    let greatest ← computed fits (greatest + lo.hi)
    make fits (loBits + hiBits) least greatest
  else top fits (loBits + hiBits)

def ite (bits : Nat) (cond t f : Interval) : Option Interval := do
  match ← singleton? fits cond 1 with
  | some 1 => return t
  | some _ => return f
  | none => hull fits t bits f

def isZero (bits : Nat) (i : Interval) : Option Interval := do
  match ← singleton? fits i bits with
  | some n => exact fits 1 (if n = 0 then 1 else 0)
  | none => if ← contains fits i bits 0 then top fits 1 else exact fits 1 0

end Checked

end Interval
end Lockstep
