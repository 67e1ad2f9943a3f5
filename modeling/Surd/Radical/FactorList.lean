import Surd.Radical.Factor

/-!
# Factor lists of numbers

Factoring and pairing for lists in which whole numbers and doubles may stand side by side. On whole numbers they are
`primeFactors` and `pairFactors`. The factors of a double are whole numbers where they were divided out; a greatest
odd factor that stands only once is what is left of the double, and is one. In a list, equal numbers are one factor,
which has the form in which it stands first; "not a number" is a factor of its own each time.
-/

namespace Surd

-- Powers are those of core, also in a module that sees the instance of a larger library.
attribute [local instance (2000)] instPowNat

/-- The factors of a whole double, given as those of its whole number: a greatest factor that is odd and stands once
becomes a double. -/
def leaveDouble : List Int → List Number
  | [] => []
  | [p] => if p = 2 then [.int p] else [.real (.ofInt p)]
  | p :: q :: rest =>
    if p = q ∧ rest.isEmpty then [.int p, .int q] else .int p :: leaveDouble (q :: rest)

/-- The prime factors of a number in growing order. A double that is not whole is its own only factor if it is greater
than two. -/
def Number.primeFactors : Number → List Number
  | .int n => (Surd.primeFactors n).map .int
  | .real x =>
    match x.truncate? with
    | none => []
    | some n =>
      if x.isWhole then leaveDouble (Surd.primeFactors n)
      else if Number.lt 2 (.real x) then [.real x] else []

/-- The factors, each once and in the order in which they first stand, with how often they stand. -/
def tally (factors : List Number) : List (Number × Nat) :=
  factors.foldl count []
where
  /-- One more factor. -/
  count : List (Number × Nat) → Number → List (Number × Nat)
  | [], f => [(f, 1)]
  | (g, n) :: rest, f => if g.equal f then (g, n + 1) :: rest else (g, n) :: count rest f

/-- A factor to a power. -/
def factorPower (lib : Elementary) (f : Number) (n : Nat) : Except Fault Number :=
  match f with
  | .int m => .ok (.int (m ^ n))
  | .real x =>
    match lib.power x (.ofInt n) with
    | .ok y => .ok (.real y)
    | .error _ => .error .factorTooLarge

/-- A product of factors as a coefficient before the root and a radicand: pairs leave the root, singles stay. -/
def pairNumbers (lib : Elementary) (factors : List Number) : Except Fault (Number × Number) :=
  (tally factors).foldlM
    (fun acc f => do
      let coefficient ← acc.1.mul (← factorPower lib f.1 (f.2 / 2))
      let radicand ← if f.2 % 2 = 1 then acc.2.mul f.1 else .ok acc.2
      return (coefficient, radicand))
    (1, 1)

end Surd
