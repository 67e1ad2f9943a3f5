import Surd.Number

/-!
# Radicals

A `Radical` is a coefficient times a square root; a `RadicalSum` is a constant plus such terms. In the sums that the
calculator computes the radicands are distinct square-free whole numbers above one; `RadicalSum.ofTerms` brings a
list of terms into that shape as far as it can without factoring.

The imaginary radicals are only written, never computed with.
-/

namespace Surd

/-- The number `coefficient · √radicand`, or that many times the imaginary unit. -/
structure Radical where
  coefficient : Number
  radicand : Number
  imaginary : Bool
  deriving DecidableEq

/-- A term `coefficient · √radicand` of a sum. -/
structure Term where
  coefficient : Number
  radicand : Number
  deriving DecidableEq

/-- A constant plus terms. -/
structure RadicalSum where
  terms : List Term
  constant : Number
  deriving DecidableEq

namespace Radical

/-- The value of a radical, the imaginary unit left out. -/
def value (r : Radical) : Except Fault Number := do
  let root ← r.radicand.sqrt
  r.coefficient.mul (.real root)

end Radical

namespace Term

/-- The value of a term. -/
def value (t : Term) : Except Fault Number := do
  let root ← t.radicand.sqrt
  t.coefficient.mul (.real root)

/-- Equality of value, number by number. -/
def equal (s t : Term) : Bool := s.coefficient.equal t.coefficient && s.radicand.equal t.radicand

end Term

namespace RadicalSum

/-- The sum with a constant only. -/
def ofConstant (c : Number) : RadicalSum := ⟨[], c⟩

def hasRadicals (s : RadicalSum) : Bool := !s.terms.isEmpty

/-- The value of a sum: the terms are added from the left to zero, and their sum to the constant. -/
def value (s : RadicalSum) : Except Fault Number := do
  let total ← s.terms.foldlM (fun acc t => do acc.add (← t.value)) (0 : Number)
  s.constant.add total

/-- Whether the constant and all coefficients have finite doubles. -/
def isFinite (s : RadicalSum) : Bool := s.constant.isFinite && s.terms.all fun t => t.coefficient.isFinite

/-! ## The normal form -/

/-- Coefficients by radicand, in the order in which the radicands first appear. -/
abbrev Merged := List (Int × Number)

/-- Add a coefficient to that of its radicand. -/
def Merged.add (radicand : Int) (coefficient : Number) : Merged → Except Fault Merged
  | [] => do return [(radicand, ← (0 : Number).add coefficient)]
  | (r, c) :: rest =>
    if r = radicand then do return (r, ← c.add coefficient) :: rest
    else do return (r, c) :: (← Merged.add radicand coefficient rest)

/-- Take one more term into a constant and merged coefficients: a radicand of zero adds nothing, a radicand of one
adds to the constant. -/
def mergeTerm (acc : Number × Merged) (t : Term) : Except Fault (Number × Merged) := do
  if t.radicand.isZero then return acc
  else if t.radicand.equal 1 then return (← acc.1.add t.coefficient, acc.2)
  else return (acc.1, ← acc.2.add (← t.radicand.truncate) t.coefficient)

/-- The sum of terms and a constant: terms with the same radicand are merged, negligible ones are dropped, and
numbers that are whole up to the tolerance become whole. -/
def ofTerms (terms : List Term) (constant : Number) : Except Fault RadicalSum := do
  let (constant, merged) ← terms.foldlM mergeTerm (constant, [])
  return {
    terms := (merged.filter fun m => !m.2.isNegligible).map fun m => ⟨m.2.normalize, .int m.1⟩
    constant := if constant.isNegligible then 0 else constant.normalize }

/-! ## Equality -/

/-- The terms by growing radicand, in their order where radicands agree. -/
def sortedTerms (s : RadicalSum) : List Term := s.terms.mergeSort fun a b => !b.radicand.lt a.radicand

/-- Whether two term lists agree number by number. -/
def equalTerms : List Term → List Term → Bool
  | [], [] => true
  | s :: ss, t :: ts => s.equal t && equalTerms ss ts
  | _, _ => false

/-- Whether two sums have equal constants and, in any order, equal terms. -/
def equal (s t : RadicalSum) : Bool :=
  s.constant.equal t.constant && equalTerms s.sortedTerms t.sortedTerms

end RadicalSum

end Surd
