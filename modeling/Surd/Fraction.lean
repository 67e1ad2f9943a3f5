import Surd.Number

/-!
# Closest fractions

The fraction closest to a number among those whose denominator stays within a limit. Every denominator is tried
with its nearest numerator; of two equally close fractions the one with the smaller denominator wins, so that the
result is in lowest terms.
-/

namespace Surd

/-- A fraction with a denominator of its own, which is positive. -/
structure Fraction where
  num : Int
  den : Nat
  deriving DecidableEq

namespace Fraction

/-- The exact value of a number in lowest terms. -/
def ofNumber : Number → Except Fault Fraction
  | .int n => .ok ⟨n, 1⟩
  | .real .nan => .error .nanToRatio
  | .real (.infinite _) => .error .infinityToRatio
  | .real x =>
    let (num, den) := x.magnitude
    let g := Nat.gcd num den
    .ok ⟨if x.negative then -(num / g : Nat) else (num / g : Nat), den / g⟩

/-- The distance of `p / q` from `num / den`, times `q · den`. -/
def distance (num den p q : Nat) : Nat := (num * q - p * den) + (p * den - num * q)

/-- The closer of two fractions to `num / den`, the first of two equally close ones. -/
def closer (num den : Nat) (best candidate : Nat × Nat) : Nat × Nat :=
  if distance num den candidate.1 candidate.2 * best.2 < distance num den best.1 best.2 * candidate.2
  then candidate else best

/-- The fraction closest to `num / den` among those with a denominator up to `limit + 1`. -/
def search (num den : Nat) : Nat → Nat × Nat
  | 0 => (roundDiv num den, 1)
  | limit + 1 =>
    closer num den (search num den limit) (roundDiv (num * (limit + 2)) den, limit + 2)

/-- The closest fraction with a denominator up to `limit`, for a positive limit. -/
def limitDenominator (f : Fraction) (limit : Nat) : Fraction :=
  if f.den ≤ limit then f
  else
    let (p, q) := search f.num.natAbs f.den (limit - 1)
    ⟨if f.num < 0 then -(p : Int) else p, q⟩

/-- The fraction as a double. -/
def toDouble (f : Fraction) : Except Fault Double := Number.quotient f.num f.den

end Fraction

end Surd
