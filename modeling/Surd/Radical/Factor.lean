import Surd.Radical.Basic

/-!
# Square-free decomposition

Every whole number is a square times a square-free number. The decomposition divides out the prime factors by
trial, pairs them, and keeps single ones under the root; squares are recognised before anything is divided.
-/

namespace Surd

-- Powers are those of core, also in a module that sees the instance of a larger library.
attribute [local instance (2000)] instPowNat

/-- How often two divides `n`, and what is left. -/
def twoPart (n : Nat) : Nat × Nat :=
  if n ≠ 0 ∧ n % 2 = 0 then
    let r := twoPart (n / 2)
    (r.1 + 1, r.2)
  else (0, n)
termination_by n
decreasing_by omega

/-- The prime factors of a number without divisors below `i`, by trial of `i` and every second number after it. -/
def trialFactors (i n : Nat) (hi : 2 ≤ i) : List Nat :=
  if h : i * i ≤ n then
    if n % i = 0 then i :: trialFactors i (n / i) hi
    else trialFactors (i + 2) n (by omega)
  else if 2 < n then [n] else []
termination_by (n, n - i)
decreasing_by
  · have hpos : 0 < n := by
      have : 0 < i * i := Nat.mul_pos (by omega) (by omega)
      omega
    exact Prod.Lex.left _ _ (Nat.div_lt_self hpos (by omega))
  · have hlt : i < n := by
      have : i * 2 ≤ i * i := Nat.mul_le_mul_left i hi
      omega
    exact Prod.Lex.right _ (by omega)

/-- The prime factors of a positive whole number in growing order; of a negative one only the twos. -/
def primeFactors (n : Int) : List Int :=
  let (twos, rest) := twoPart n.natAbs
  List.replicate twos 2 ++ (if n < 0 then [] else (trialFactors 3 rest (by decide)).map Int.ofNat)

/-- A product of factors as a coefficient before the root and a radicand: pairs leave the root, singles stay. -/
def pairFactors (factors : List Int) : Int × Int :=
  factors.eraseDups.foldl
    (fun acc f =>
      let count := factors.count f
      (acc.1 * f ^ (count / 2), if count % 2 = 1 then acc.2 * f else acc.2))
    (1, 1)

/-- The square root of a positive whole number as a coefficient and a square-free radicand. -/
def rootOfNat (n : Nat) : Int × Int :=
  let root := floorSqrt n
  if root * root = n then (root, 1) else pairFactors (primeFactors n)

/-- The square root of the size of a number, with the sign of the number on the coefficient. A number that is not
whole has no factors and goes to the coefficient. -/
def Radical.simplify (a : Number) : Except Fault Radical := do
  if a.isZero then return ⟨0, 1, false⟩
  let sign : Int := if a.isNegative then -1 else 1
  if a.isWhole then
    let n ← a.abs.truncate
    let (coefficient, radicand) := rootOfNat n.natAbs
    return ⟨.int (sign * coefficient), .int radicand, false⟩
  else
    let root ← a.abs.sqrt
    return ⟨← (Number.int sign).mul (.real root), 1, false⟩

end Surd
