/-
# Intervals

An interval with bounds `lo` and `hi` stands at a width `w` for the words
`x mod 2 ^ w` with `lo ≤ x ≤ hi`. Bounds are integers, so that a range on
both sides of zero, such as the one from -100 to 100, is one interval. A
range that meets every word collapses to the full one, `top`. The bitwise
operations are exact on single words and give coarse bounds elsewhere.

Bounds are kept in 64 bits. The operations here compute with integers of any
size; where a number on the way does not fit into 64 bits the program ends, and
`Interval.Checked` has the same operations with a check at each number.

Key definitions: `Interval`, `Interval.Mem`, `Interval.make`, `Interval.binary`,
`Interval.slice`, `Interval.concat`.
-/
import Lockstep.Word

namespace Lockstep

/-- Two bounds. A program holds each in 64 bits; `Interval.Checked` tells where it ends. -/
@[ext] structure Interval where
  lo : Int
  hi : Int
  deriving DecidableEq, Repr

namespace Interval

/-- Two to a width: bounds that differ by it stand for one word. -/
def modulus (bits : Nat) : Int := Word.weight bits

def maxWord (bits : Nat) : Int := Word.max bits

/-- The words that an interval stands for. -/
def Mem (i : Interval) (bits n : Nat) : Prop :=
  ∃ x : Int, i.lo ≤ x ∧ x ≤ i.hi ∧ (n : Int) = x % modulus bits

def exact (bits n : Nat) : Interval := ⟨Word.truncate bits n, Word.truncate bits n⟩

def top (bits : Nat) : Interval := ⟨0, maxWord bits⟩

/-- The interval with the given bounds, moved so that the upper bound is a
word; bounds out of order or that meet every word give `top`. -/
def make (bits : Nat) (lo hi : Int) : Interval :=
  if hi < lo ∨ modulus bits ≤ hi - lo then top bits
  else
    let shift := hi / modulus bits * modulus bits
    ⟨lo - shift, hi - shift⟩

/-- Do the bounds span every word? -/
def isTop (i : Interval) (bits : Nat) : Bool := maxWord bits ≤ i.hi - i.lo

/-- The word of an interval with equal bounds. -/
def singleton? (i : Interval) (bits : Nat) : Option Nat :=
  if i.lo = i.hi then some (i.lo % Word.count bits).toNat else none

/-- Are both bounds words, so that the range does not go through zero? -/
def isCanonical (i : Interval) (bits : Nat) : Bool := 0 ≤ i.lo && i.hi ≤ maxWord bits

/-- Is one of the two representatives of the word that follow the lower bound
between the bounds? -/
def contains (i : Interval) (bits n : Nat) : Bool :=
  let base := i.lo / modulus bits * modulus bits
  let low := base + Word.truncate bits n
  let high := base + modulus bits + Word.truncate bits n
  (i.lo ≤ low && low ≤ i.hi) || (i.lo ≤ high && high ≤ i.hi)

/-- The least range around two intervals. -/
def hull (i : Interval) (bits : Nat) (j : Interval) : Interval :=
  make bits (min i.lo j.lo) (max i.hi j.hi)

/-- The written form: one number between braces, or two between brackets. -/
def text (i : Interval) : String :=
  if i.lo = i.hi then "\x7b" ++ toString i.lo ++ "\x7d"
  else "[" ++ toString i.lo ++ "," ++ toString i.hi ++ "]"

/-- The least number of the form `2 ^ k - 1` that is not below a bound. -/
def fillBelow (bound : Int) : Int :=
  if bound ≤ 0 then 0 else modulus (bound.toNat.log2 + 1) - 1

/-- A bitwise operation: exact on two single words, the given bounds on two
ranges that do not go through zero, and every word elsewhere. -/
def bitwise (op : BinaryOp) (bits : Nat) (i j : Interval) (lo hi : Int) : Interval :=
  match i.singleton? bits, j.singleton? bits with
  | some a, some b => exact bits (Word.binary op bits a b)
  | _, _ =>
    if i.isCanonical bits && j.isCanonical bits then make bits lo (min hi (maxWord bits))
    else top bits

def binary (op : BinaryOp) (bits : Nat) (i j : Interval) : Interval :=
  match op with
  | .add => make bits (i.lo + j.lo) (i.hi + j.hi)
  | .sub => make bits (i.lo - j.hi) (i.hi - j.lo)
  | .and => bitwise .and bits i j 0 (min i.hi j.hi)
  | .or => bitwise .or bits i j (max i.lo j.lo) (fillBelow (max i.hi j.hi))
  | .xor => bitwise .xor bits i j 0 (fillBelow (max i.hi j.hi))

/-- Every bit flipped: the complement of `x` is `-1 - x`. -/
def invert (bits : Nat) (i : Interval) : Interval := make bits (-1 - i.hi) (-1 - i.lo)

/-- The bits from `lo` up to `hi`: exact on a single word, the same bounds for
a low slice that drops no set bit, shifted bounds for a high slice. -/
def slice (bits : Nat) (i : Interval) (lo hi : Nat) : Interval :=
  match i.singleton? bits with
  | some n => exact (hi - lo) (n >>> lo)
  | none =>
    if i.isCanonical bits then
      if lo = 0 ∧ i.hi ≤ maxWord (hi - lo) then i
      else if hi = bits then make (hi - lo) (i.lo / modulus lo) (i.hi / modulus lo)
      else top (hi - lo)
    else top (hi - lo)

/-- A bound moved up; bits above the 64 drop out. -/
def moveUp (bound : Int) (bits : Nat) : Int := (bound * modulus bits).bmod 0x10000000000000000

/-- The low range below the high one. -/
def concat (lo : Interval) (loBits : Nat) (hi : Interval) (hiBits : Nat) : Interval :=
  if lo.isCanonical loBits && hi.isCanonical hiBits then
    make (loBits + hiBits) (moveUp hi.lo loBits + lo.lo) (moveUp hi.hi loBits + lo.hi)
  else top (loBits + hiBits)

/-- One branch where the condition is a single bit, and otherwise the hull of both. -/
def ite (bits : Nat) (cond t f : Interval) : Interval :=
  match cond.singleton? 1 with
  | some 1 => t
  | some _ => f
  | none => t.hull bits f

/-- The bit that tells whether a word of the interval is zero. -/
def isZero (bits : Nat) (i : Interval) : Interval :=
  match i.singleton? bits with
  | some n => exact 1 (if n = 0 then 1 else 0)
  | none => if i.contains bits 0 then top 1 else exact 1 0

end Interval

end Lockstep
