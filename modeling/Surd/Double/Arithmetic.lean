import Surd.Double.Basic

/-!
# Arithmetic of doubles

Each operation computes the exact result on significands and exponents and rounds it once with
`Double.nearest`; infinities, signed zeros and "not a number" follow IEEE 754. Division by a zero is defined here
as the standard has it; the calculator reports it before it comes to that.
-/

namespace Surd.Double

-- Powers are those of core, also in a module that sees the instance of a larger library.
attribute [local instance (2000)] instPowNat

/-- The opposite sign. -/
def neg : Double → Double
  | nan => nan
  | infinite s => infinite (!s)
  | finite s m e h => finite (!s) m e h

/-- The sign plus. -/
def abs : Double → Double
  | nan => nan
  | infinite _ => infinite false
  | finite _ m e h => finite false m e h

/-- The sum; an exact zero is minus zero only where both terms are. -/
def add : Double → Double → Double
  | nan, _ => nan
  | _, nan => nan
  | infinite s, infinite t => if s = t then infinite s else nan
  | infinite s, finite _ _ _ _ => infinite s
  | finite _ _ _ _, infinite t => infinite t
  | finite s m d h, finite t n e k =>
    let low := min d e
    ofScaled (s && t)
      ((finite s m d h).significand * 2 ^ (d - low).toNat + (finite t n e k).significand * 2 ^ (e - low).toNat) low

/-- The difference. -/
def sub (x y : Double) : Double := add x y.neg

/-- The product. -/
def mul : Double → Double → Double
  | nan, _ => nan
  | _, nan => nan
  | infinite s, infinite t => infinite (s != t)
  | infinite s, finite t n _ _ => if n = 0 then nan else infinite (s != t)
  | finite s m _ _, infinite t => if m = 0 then nan else infinite (s != t)
  | finite s m d _, finite t n e _ => nearest (s != t) (scaleUp (m * n) (d + e)) (scaleDown (d + e))

/-- The quotient. -/
def div : Double → Double → Double
  | nan, _ => nan
  | _, nan => nan
  | infinite _, infinite _ => nan
  | infinite s, finite t _ _ _ => infinite (s != t)
  | finite s _ _ _, infinite t => zero (s != t)
  | finite s m d _, finite t n e _ =>
    if n = 0 then if m = 0 then nan else infinite (s != t)
    else nearest (s != t) (scaleUp m (d - e)) (scaleUp n (e - d))

/-- The square root. The significand is scaled so far up that the whole part of its root has more binary digits
than a double; where the root is not exact, one more digit says that it lies above. -/
def sqrt : Double → Double
  | nan => nan
  | infinite s => if s then nan else infinite false
  | finite s m e h =>
    if m = 0 then finite s m e h
    else if s then nan
    else
      let shift : Nat := if e % 2 = 0 then 110 else 111
      let scaled := m * 2 ^ shift
      let root := floorSqrt scaled
      let doubled := 2 * root + (if root * root = scaled then 0 else 1)
      ofScaled false doubled ((e - shift) / 2 - 1)

/-- The greatest finite double. -/
def greatest : Double := pack false (2 ^ (53 : Nat) - 1) maxExponent

end Surd.Double
