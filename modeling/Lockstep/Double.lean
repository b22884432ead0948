/-
# Doubles

A double holds a number to 53 significant bits. A number between two doubles
is rounded to the nearer one, and to the even one if both are as near; a number
that would round to two to the power 1024 rounds to infinity.

Key definitions: `Double.nearest`, `Double.round`, `Double.productOverflows`.
Key theorems: `Double.nearest_near`, `Double.round_of_lt`.
-/

namespace Lockstep.Double

/-- The nearest multiple of a unit, and of two that are as near the even one. -/
def nearest (unit n : Nat) : Nat :=
  if 2 * (n % unit) < unit ∨ (2 * (n % unit) = unit ∧ n / unit % 2 = 0) then n / unit * unit
  else (n / unit + 1) * unit

/-- The distance between two doubles that lie around a number. -/
def spacing (n : Nat) : Nat := Nat.pow 2 (n.log2 + 1 - 53)

/-- The double that is nearest to a number, as long as that is not infinity. -/
def round (n : Nat) : Nat := nearest (spacing n) n

/-- The least number that rounds to infinity. It lies halfway between the
largest double and the power of two above it. -/
def infinite : Nat := Nat.pow 2 1024 - Nat.pow 2 970

/-- Is the product of two numbers infinite, each of them and then the product
rounded to a double? -/
def productOverflows (m n : Nat) : Bool := infinite ≤ round m * round n

theorem nearest_near {unit : Nat} (h : 0 < unit) (n : Nat) :
    2 * nearest unit n ≤ 2 * n + unit ∧ 2 * n ≤ 2 * nearest unit n + unit := by
  have parts : n / unit * unit + n % unit = n := Nat.div_add_mod' n unit
  have less : n % unit < unit := Nat.mod_lt n h
  unfold nearest
  split
  · omega
  · rw [Nat.add_mul, Nat.one_mul]
    omega

theorem round_of_lt {n : Nat} (h : n < Nat.pow 2 53) : round n = n := by
  have small : n.log2 < 53 := by
    by_cases zero : n = 0
    · subst zero
      decide
    · exact (Nat.log2_lt zero).2 h
  have unit : spacing n = 1 := by
    rw [spacing, Nat.sub_eq_zero_of_le small]
  simp [round, nearest, unit, Nat.mod_one]

end Lockstep.Double
