import Surd.Decimal.Basic

/-!
# Writing decimals

A decimal is written positionally or with an exponent. `Layout` says where the one ends and the other begins and
whether a whole number keeps a mark; the two layouts in use are `Layout.reading`, which is read back without loss,
and `Layout.display`, which is what a calculator shows.
-/

namespace Surd

/-- How decimals are written: positionally while the exponent of the first digit is at least `least` and below
`bound`, and with an exponent otherwise. -/
structure Layout where
  least : Int
  bound : Int
  /-- What follows a whole number written positionally. -/
  wholeMark : String

/-- Numbers as they are read back: positional from 0.0001 up to 10 ^ 16, whole ones with a fraction of zero. -/
def Layout.reading : Layout := ⟨-4, 16, ".0"⟩

/-- Numbers as they are shown with ten digits: positional from 0.0001 up to 10 ^ 10, whole ones without a mark. -/
def Layout.display : Layout := ⟨-4, 10, ""⟩

/-- The digits of a natural number. -/
def digits (n : Nat) : List Char := Nat.toDigits 10 n

/-- A whole number in full. It may have any number of digits: that a run can be given a limit for them, and meets a
fault beyond it when it writes or reads a whole number, is left out throughout. -/
def writeInt (n : Int) : String :=
  if n < 0 then String.ofList ('-' :: digits n.natAbs) else String.ofList (digits n.natAbs)

namespace Decimal

/-- The sign in front of a number. -/
def signText (negative : Bool) : List Char := if negative then ['-'] else []

/-- The size of a number without an exponent: all its digits, with zeros before or after them as needed. -/
def positional (coefficient : Nat) (exponent : Int) : List Char :=
  let ds := digits coefficient
  if 0 ≤ exponent then ds ++ List.replicate exponent.toNat '0'
  else
    let places := (-exponent).toNat
    let padded := List.replicate (places + 1 - ds.length) '0' ++ ds
    padded.take (padded.length - places) ++ '.' :: padded.drop (padded.length - places)

/-- The number without an exponent. -/
def plain (d : Decimal) : String := String.ofList (signText d.negative ++ positional d.coefficient d.exponent)

/-- The exponent with a sign and at least two digits. -/
def exponentText (e : Int) : List Char :=
  let ds := digits e.natAbs
  'e' :: (if e < 0 then '-' else '+') :: (if ds.length < 2 then '0' :: ds else ds)

/-- One digit before the point, the others after it, and the exponent of the first. -/
def scientific (coefficient : Nat) (exponent : Int) : List Char :=
  let ds := digits coefficient
  let fraction := if ds.length ≤ 1 then [] else '.' :: ds.drop 1
  ds.take 1 ++ fraction ++ exponentText (ds.length - 1 + exponent)

/-- The number in a layout. A zero counts as whole with its only digit in the place of the ones. -/
def write (l : Layout) (d : Decimal) : String :=
  let d := d.normalize
  let body :=
    if l.least ≤ d.leading ∧ d.leading < l.bound then
      positional d.coefficient d.exponent ++ (if 0 ≤ d.exponent then l.wholeMark.toList else [])
    else scientific d.coefficient d.exponent
  String.ofList (signText d.negative ++ body)

end Decimal

namespace Double

/-- The text of an infinity. -/
def infinityText (negative : Bool) : String := if negative then "-inf" else "inf"

/-- A double with the fewest digits that read back. -/
def text : Double → String
  | nan => "nan"
  | infinite s => infinityText s
  | x => (Decimal.shortest x).write .reading

/-- A double with at most ten significant digits, taken from its exact value. -/
def tenDigits : Double → String
  | nan => "nan"
  | infinite s => infinityText s
  | x => (Decimal.significant x.negative x.magnitude.1 x.magnitude.2 10).write .display

end Double

end Surd
