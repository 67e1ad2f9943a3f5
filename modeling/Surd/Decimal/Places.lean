import Surd.Number

/-!
# Fixed places

A result is shown with at most a given number of decimal places, rounded half to even from the decimal that the
number is written as, without trailing zeros and never with an exponent. The text comes with a flag that says
whether digits were cut. Four hundred digits are kept; what needs more has no text. "Not a number" has the same text
at any number of places that a decimal can have.
-/

namespace Surd

-- Powers are those of core, also in a module that sees the instance of a larger library.
attribute [local instance (2000)] instPowNat

/-- The greatest number of digits of a shown decimal. -/
def digitLimit : Nat := 400

/-- The greatest number of decimal places. -/
def placesLimit : Nat := 1999999999999999997

namespace Decimal

/-- The decimal to `places` decimal places, of two equally near ones the one whose last digit is even. -/
def toPlaces (d : Decimal) (places : Nat) : Decimal :=
  let shift := d.exponent + places
  ⟨d.negative, roundDiv (d.coefficient * 10 ^ shift.toNat) (10 ^ (-shift).toNat), -places⟩

/-- Whether two decimals denote the same number. -/
def sameValue (a b : Decimal) : Bool := a.normalize == b.normalize

/-- The text of a decimal with at most `places` decimal places, and whether digits were cut. Whether the number is whole
is seen from what is left of it behind the point, and no digit in front of the point may be lost in that. -/
def toFixed (d : Decimal) (places : Nat) : Except Fault (String × Bool) :=
  if d.coefficient ≠ 0 ∧ (digitLimit : Int) ≤ d.leading then .error .decimalTooLong
  else if d.isWhole then .ok (d.normalize.plain, false)
  else if (digitLimit : Int) < digitCount d.coefficient + (d.exponent + places) then .error .decimalTooLong
  else
    let r := d.toPlaces places
    if digitLimit < digitCount r.coefficient then .error .decimalTooLong
    else .ok (r.normalize.plain, !r.sameValue d)

end Decimal

/-- The text of a number with at most `places` decimal places, and whether digits were cut. -/
def Number.toFixed (a : Number) (places : Nat) : Except Fault (String × Bool) :=
  match a with
  | int n => if digitLimit < digitCount n.natAbs then .error .decimalTooLong else .ok (writeInt n, false)
  | real .nan => if placesLimit < places then .error .decimalTooLong else .ok ("NaN", true)
  | real (.infinite _) => .error .decimalTooLong
  | real x => (Decimal.shortest x).toFixed places

end Surd
