import Surd.Radical.Factor

/-!
# Arithmetic of radical sums

Sums, differences, multiples, products and whole powers of radical sums are radical sums again. On whole
coefficients and constants nothing is rounded; division rounds. Every result is in the normal form of
`RadicalSum.ofTerms`.
-/

namespace Surd

/-- The greatest number that is factored inside a product. -/
def trialLimit : Int := 1000000000000

/-- The product of two square roots as a coefficient and a radicand. Up to the limit the product is factored; above
it the radicands are taken to be square-free, and their greatest common divisor leaves the root. -/
def multiplyRadicands (a b : Number) : Except Fault (Number × Number) := do
  let product ← a.mul b
  if product.le (.int trialLimit) then
    let r ← Radical.simplify product
    return (r.coefficient, r.radicand)
  else
    match a, b with
    | .int m, .int n =>
      let g : Int := Int.gcd m n
      return (.int g, .int (m / g * (n / g)))
    | _, _ => throw .notAnInteger

namespace RadicalSum

/-- The sum of two radical sums. -/
def add (s t : RadicalSum) : Except Fault RadicalSum := do
  let constant ← s.constant.add t.constant
  ofTerms (s.terms ++ t.terms) constant

/-- Every term and the constant times a number. -/
def scale (s : RadicalSum) (factor : Number) : Except Fault RadicalSum := do
  let terms ← s.terms.mapM fun t => do return (⟨← t.coefficient.mul factor, t.radicand⟩ : Term)
  let constant ← s.constant.mul factor
  ofTerms terms constant

/-- The opposite. -/
def negate (s : RadicalSum) : Except Fault RadicalSum := s.scale (.int (-1))

/-- Every term and the constant divided by a number. -/
def divide (s : RadicalSum) (divisor : Number) : Except Fault RadicalSum := do
  let terms ← s.terms.mapM fun t => do return (⟨← t.coefficient.div divisor, t.radicand⟩ : Term)
  let constant ← s.constant.div divisor
  ofTerms terms constant

/-- The product of two terms. -/
def multiplyTerms (a b : Term) : Except Fault Term := do
  let (coefficient, radicand) ← multiplyRadicands a.radicand b.radicand
  let outer ← a.coefficient.mul b.coefficient
  return ⟨← outer.mul coefficient, radicand⟩

/-- The terms of a sum times a constant; none where the constant is zero. -/
def termsTimes (terms : List Term) (constant : Number) : Except Fault (List Term) :=
  if constant.isZero then .ok []
  else terms.mapM fun t => do return (⟨← t.coefficient.mul constant, t.radicand⟩ : Term)

/-- The product of two radical sums, every term of the one with every term of the other. -/
def multiply (s t : RadicalSum) : Except Fault RadicalSum := do
  let constant ← s.constant.mul t.constant
  let crossed ← s.terms.mapM fun a => t.terms.mapM (multiplyTerms a)
  let left ← termsTimes s.terms t.constant
  let right ← termsTimes t.terms s.constant
  ofTerms (crossed.flatten ++ left ++ right) constant

/-- `result · base ^ n`, squaring the base for each binary digit of `n` but the last. -/
def powerFrom (result base : RadicalSum) (n : Nat) : Except Fault RadicalSum :=
  if n = 0 then .ok result
  else do
    let result ← if n % 2 = 1 then result.multiply base else .ok result
    if n / 2 = 0 then return result
    else powerFrom result (← base.multiply base) (n / 2)
termination_by n
decreasing_by omega

/-- A whole power. -/
def power (s : RadicalSum) (exponent : Number) : Except Fault RadicalSum := do
  if exponent.isNegative || !exponent.isWhole then throw (.exponentRefused exponent.text)
  let n ← exponent.truncate
  powerFrom (ofConstant 1) s n.toNat

end RadicalSum

end Surd
