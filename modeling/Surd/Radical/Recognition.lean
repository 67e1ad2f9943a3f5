import Surd.Radical.Factor
import Surd.Radical.Arithmetic
import Surd.Fraction

/-!
# Recognising radicals

A decimal is recognised as a radical through its square: where the square is close to a fraction with a small
denominator, the root of the fraction is simplified above and below, and the denominator is made rational. What is
not recognised is a radical with radicand one.
-/

namespace Surd

/-- The greatest denominator that is tried for the square of a decimal. -/
def maxDenominator : Nat := 10000

/-- The precision with which decimals are recognised unless another one is given: 0.0001. -/
def defaultPrecision : Number := .real (Decimal.toDouble ⟨false, 1, -4⟩)

/-- The closest fraction with a small denominator, if it is closer than `precision`. -/
def closeFraction? (a precision : Number) : Except Fault (Option Fraction) := do
  let f := (← Fraction.ofNumber a).limitDenominator maxDenominator
  let miss ← (Number.real (← f.toDouble)).sub a
  return if miss.abs.lt precision then some f else none

/-- The radical of the square root of a positive fraction, the denominator made rational: of
`c₁√r₁ / (c₂√r₂)` it is `c₁ / (c₂ r₂)` times the root of `r₁ r₂`. -/
def Fraction.root (f : Fraction) : Except Fault (Double × Int) := do
  let (c₁, r₁) := rootOfNat f.num.natAbs
  let (c₂, r₂) := rootOfNat f.den
  return (← Number.quotient c₁ (c₂ * r₂), r₁ * r₂)

/-- The square of a decimal, if it is finite and no numerator beyond the limit for factoring can come of it. -/
def squareInReach? (a : Number) : Except Fault (Option Number) := do
  if !(← a.toDouble).isFinite then return none
  let squared ← a.mul a
  return if (Number.int trialLimit).lt (← squared.mul (.int maxDenominator)) then none else some squared

/-- The radical that a decimal is recognised as. -/
def Radical.recognise (a precision : Number) : Except Fault Radical := do
  let fallback : Radical := ⟨a.normalize, 1, false⟩
  let some squared ← squareInReach? a | return fallback
  if a.isZero then return ⟨0, 1, false⟩
  match ← closeFraction? squared precision with
  | none => return fallback
  | some f =>
    if f.num = 0 then return fallback
    let (coefficient, radicand) ← f.root
    let size ← (Number.real coefficient).mul (.real (← (Number.int radicand).sqrt))
    let miss ← size.sub a.abs
    if precision.le miss.abs then return fallback
    let sign : Int := if a.isNegative then -1 else 1
    return ⟨← (Number.int sign).mul (Number.real coefficient).normalize, .int radicand, false⟩

end Surd
