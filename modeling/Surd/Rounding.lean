/-!
# Rounding exact quotients

Every inexact number of this library is an exact quotient of natural numbers that was rounded once.
This module holds that rounding, and the three measures of a quotient that decide where it is applied:
how many binary places it has, how many decimal places, and the whole part of its square root.
-/

namespace Surd

-- Powers are those of core, also in a module that sees the instance of a larger library.
attribute [local instance (2000)] instPowNat

/-- The whole number nearest to `num / den`; of two equally near ones, the even one. -/
def roundDiv (num den : Nat) : Nat :=
  let q := num / den
  let r := num % den
  if 2 * r < den then q
  else if den < 2 * r then q + 1
  else q + q % 2

/-- The exponent `k` with `2 ^ k ≤ num / den < 2 ^ (k + 1)`, for positive `num` and `den`. -/
def floorLog2 (num den : Nat) : Int :=
  let k : Int := (num.log2 : Int) - (den.log2 : Int)
  if den * 2 ^ k.toNat ≤ num * 2 ^ (-k).toNat then k else k - 1

/-- How many decimal digits `n` is written with. -/
def digitCount (n : Nat) : Nat := (Nat.toDigits 10 n).length

/-- The exponent `k` with `10 ^ k ≤ num / den < 10 ^ (k + 1)`, for positive `num` and `den`: scaled by a power
of ten above `den` the quotient is at least one, and its whole part is counted. -/
def floorLog10 (num den : Nat) : Int :=
  let shift := digitCount den
  (digitCount (num * 10 ^ shift / den) : Int) - 1 - shift

/-- The whole part of the square root of `n`, two binary digits of `n` at a time. -/
def floorSqrt (n : Nat) : Nat :=
  if n = 0 then 0
  else
    let r := 2 * floorSqrt (n / 4)
    if (r + 1) * (r + 1) ≤ n then r + 1 else r
termination_by n
decreasing_by omega

/-- `n` times `2 ^ e` when `e` is not negative, and `n` otherwise. With `scaleDown` it writes `n · 2 ^ e` as a
quotient of natural numbers. -/
abbrev scaleUp (n : Nat) (e : Int) : Nat := n * 2 ^ e.toNat

/-- The denominator of `n · 2 ^ e`. -/
abbrev scaleDown (e : Int) : Nat := 2 ^ (-e).toNat

end Surd
