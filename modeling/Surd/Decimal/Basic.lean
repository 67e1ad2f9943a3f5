import Surd.Double.Basic

/-!
# Decimals

A `Decimal` is a sign, a coefficient and a power of ten. This module says which decimal stands for a double —
the one with the fewest digits that reads back as the same double, and of those the nearest — how a decimal is
rounded to a number of digits, and which double a decimal is read as.
-/

namespace Surd

-- Powers are those of core, also in a module that sees the instance of a larger library.
attribute [local instance (2000)] instPowNat

/-- The number `coefficient · 10 ^ exponent` with a sign of its own. -/
structure Decimal where
  negative : Bool
  coefficient : Nat
  exponent : Int
  deriving DecidableEq

/-- `n` without its trailing zeros, with the number of them. -/
def stripZeros (n : Nat) : Nat × Nat :=
  if n ≠ 0 ∧ n % 10 = 0 then
    let r := stripZeros (n / 10)
    (r.1, r.2 + 1)
  else (n, 0)
termination_by n
decreasing_by omega

namespace Decimal

/-- The same number with the shortest coefficient; a zero has the exponent zero. -/
def normalize (d : Decimal) : Decimal :=
  if d.coefficient = 0 then ⟨d.negative, 0, 0⟩
  else
    let r := stripZeros d.coefficient
    ⟨d.negative, r.1, d.exponent + r.2⟩

/-- The exponent of the first digit. -/
def leading (d : Decimal) : Int := digitCount d.coefficient - 1 + d.exponent

/-- Whether the number is whole. -/
def isWhole (d : Decimal) : Bool := d.coefficient % 10 ^ (-d.exponent).toNat == 0

/-- The nearest double. Beyond the range of doubles on either side the power of ten is not formed. -/
def toDouble (d : Decimal) : Double :=
  if d.coefficient = 0 then .zero d.negative
  else if 400 < d.leading then .infinite d.negative
  else if d.leading < -400 then .zero d.negative
  else .nearest d.negative (d.coefficient * 10 ^ d.exponent.toNat) (10 ^ (-d.exponent).toNat)

/-- The multiple of `10 ^ grid` nearest to `num / den`, a tie going to the even multiple. -/
def onGrid (negative : Bool) (num den : Nat) (grid : Int) : Decimal :=
  ⟨negative, roundDiv (num * 10 ^ (-grid).toNat) (den * 10 ^ grid.toNat), grid⟩

/-- `num / den` to `digits` significant digits, without trailing zeros. -/
def significant (negative : Bool) (num den digits : Nat) : Decimal :=
  if num = 0 then ⟨negative, 0, 0⟩
  else (onGrid negative num den (floorLog10 num den + 1 - digits)).normalize

/-- The decimal with `digits` digits next to `x` that is read as `x`: the nearest, or else its neighbour on the
other side of `x`. -/
def readingBack? (x : Double) (digits : Nat) : Option Decimal :=
  let (num, den) := x.magnitude
  let d := onGrid x.negative num den (floorLog10 num den + 1 - digits)
  let below := d.coefficient * 10 ^ d.exponent.toNat * den ≤ num * 10 ^ (-d.exponent).toNat
  let other := if below then { d with coefficient := d.coefficient + 1 }
    else { d with coefficient := d.coefficient - 1 }
  if d.toDouble = x then some d
  else if other.toDouble = x then some other
  else none

/-- The decimal with the fewest digits that is read as the finite double `x`. Seventeen digits always suffice. -/
def shortest (x : Double) : Decimal :=
  let (num, den) := x.magnitude
  if num = 0 then ⟨x.negative, 0, 0⟩
  else
    match (List.range 17).findSome? fun k => readingBack? x (k + 1) with
    | some d => d.normalize
    | none => significant x.negative num den 17

end Decimal

end Surd
