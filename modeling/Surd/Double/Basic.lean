import Surd.Rounding

/-!
# Doubles

A `Double` is a number of the IEEE 754 format binary64: a sign, 53 binary digits and an exponent, or one of the
two infinities, or not a number. There is one value for "not a number"; its payload never shows.

The finite ones are exact: `significand` and `exponent` name the number `significand · 2 ^ exponent`. A quotient
becomes a double in one place only, `Double.nearest`. Comparison is exact; with "not a number" nothing compares.
-/

namespace Surd

-- Powers are those of core, also in a module that sees the instance of a larger library.
attribute [local instance (2000)] instPowNat

namespace Double

/-- The least exponent of a finite double. -/
def minExponent : Int := -1074

/-- The greatest exponent of a finite double. -/
def maxExponent : Int := 971

/-- A finite double is written as `mantissa · 2 ^ exponent` with 53 binary digits, or with fewer of them at the
least exponent, so each one is written in one way only. -/
def Fits (mantissa : Nat) (exponent : Int) : Prop :=
  mantissa < 2 ^ (53 : Nat) ∧ minExponent ≤ exponent ∧ exponent ≤ maxExponent ∧
    (2 ^ (52 : Nat) ≤ mantissa ∨ exponent = minExponent)

instance (mantissa : Nat) (exponent : Int) : Decidable (Fits mantissa exponent) :=
  inferInstanceAs (Decidable (_ ∧ _ ∧ _ ∧ _))

end Double

/-- A number in the format binary64. -/
inductive Double where
  /-- Not a number. -/
  | nan
  /-- Plus or minus infinity. -/
  | infinite (negative : Bool)
  /-- The number `mantissa · 2 ^ exponent` with a sign of its own, so that zero has two. -/
  | finite (negative : Bool) (mantissa : Nat) (exponent : Int) (fits : Double.Fits mantissa exponent)
  deriving DecidableEq

namespace Double

/-- Zero with the given sign. -/
def zero (negative : Bool) : Double := .finite negative 0 minExponent (by decide)

/-- The finite double with this mantissa and exponent, or an infinity when the exponent is too great. -/
def pack (negative : Bool) (mantissa : Nat) (exponent : Int) : Double :=
  if h : Fits mantissa exponent then .finite negative mantissa exponent h else .infinite negative

/-- The double nearest to `num / den` for a positive `den`, of two equally near ones the one with the even
mantissa; an infinity beyond the greatest finite double. -/
def nearest (negative : Bool) (num den : Nat) : Double :=
  if num = 0 then zero negative
  else
    let exponent := max (floorLog2 num den - 52) minExponent
    let mantissa := roundDiv (num * scaleDown exponent) (scaleUp den exponent)
    if mantissa = 2 ^ (53 : Nat) then pack negative (2 ^ (52 : Nat)) (exponent + 1)
    else pack negative mantissa exponent

/-- The double nearest to `significand · 2 ^ exponent`; a zero takes the sign that is given for it. -/
def ofScaled (zeroNegative : Bool) (significand exponent : Int) : Double :=
  if significand = 0 then zero zeroNegative
  else nearest (decide (significand < 0)) (scaleUp significand.natAbs exponent) (scaleDown exponent)

/-- The double nearest to a whole number. -/
def ofInt (n : Int) : Double := ofScaled false n 0

/-- The sign; that of "not a number" is plus. -/
def negative : Double → Bool
  | nan => false
  | infinite s => s
  | finite s _ _ _ => s

/-- The signed mantissa of a finite double. -/
def significand : Double → Int
  | finite s m _ _ => if s then -(m : Int) else m
  | _ => 0

/-- The exponent of a finite double. -/
def exponent : Double → Int
  | finite _ _ e _ => e
  | _ => 0

def isNaN : Double → Bool
  | nan => true
  | _ => false

def isInfinite : Double → Bool
  | infinite _ => true
  | _ => false

def isFinite : Double → Bool
  | finite _ _ _ _ => true
  | _ => false

@[simp] theorem isFinite_nan : nan.isFinite = false := rfl

@[simp] theorem isFinite_infinite (s : Bool) : (infinite s).isFinite = false := rfl

@[simp] theorem isFinite_zero (s : Bool) : (zero s).isFinite = true := rfl

/-! ## Order -/

/-- How `a · 2 ^ i` compares with `b · 2 ^ j`. -/
def compareScaled (a i b j : Int) : Ordering :=
  compare (a * 2 ^ (i - j).toNat) (b * 2 ^ (j - i).toNat)

/-- Minus one and one for the infinities, zero for what lies between them. -/
def reach : Double → Int
  | infinite s => if s then -1 else 1
  | _ => 0

/-- How two doubles compare; nothing where one is not a number. -/
def compare? (x y : Double) : Option Ordering :=
  if x.isNaN || y.isNaN then none
  else some ((compare x.reach y.reach).then
    (compareScaled x.significand x.exponent y.significand y.exponent))

/-- How a double compares with a whole number, exactly. -/
def compareInt? (x : Double) (n : Int) : Option Ordering :=
  if x.isNaN then none
  else some ((compare x.reach 0).then (compareScaled x.significand x.exponent n 0))

/-! ## Whole numbers -/

/-- Whether the double is a whole number. -/
def isWhole : Double → Bool
  | finite _ m e _ => m % scaleDown e == 0
  | _ => false

/-- The whole number left when the fraction is cut off; nothing where there is none. -/
def truncate? : Double → Option Int
  | finite s m e _ =>
    let n := scaleUp m e / scaleDown e
    some (if s then -(n : Int) else n)
  | _ => none

/-- The nearest whole number, a half going to the even one; nothing where there is none. -/
def round? : Double → Option Int
  | finite s m e _ =>
    let n := roundDiv (scaleUp m e) (scaleDown e)
    some (if s then -(n : Int) else n)
  | _ => none

/-- The size of a finite double as a quotient, not in lowest terms. -/
def magnitude : Double → Nat × Nat
  | finite _ m e _ => (scaleUp m e, scaleDown e)
  | _ => (0, 1)

/-! ## Interchange format -/

/-- The 64 bits of the interchange format. -/
def toBits : Double → UInt64
  | nan => 0x7FF8000000000000
  | infinite s => if s then 0xFFF0000000000000 else 0x7FF0000000000000
  | finite s m e _ =>
    let body : Nat := if m < 2 ^ (52 : Nat) then m else (e + 1075).toNat * 2 ^ (52 : Nat) + (m - 2 ^ (52 : Nat))
    UInt64.ofNat (if s then 2 ^ (63 : Nat) + body else body)

/-- The double that 64 bits of the interchange format stand for. -/
def ofBits (bits : UInt64) : Double :=
  let n := bits.toNat
  let negative := decide (2 ^ (63 : Nat) ≤ n)
  let fraction : Nat := n % 2 ^ (52 : Nat)
  let biased : Nat := n / 2 ^ (52 : Nat) % 2048
  if biased = 2047 then if fraction = 0 then .infinite negative else .nan
  else if biased = 0 then pack negative fraction minExponent
  else pack negative (2 ^ (52 : Nat) + fraction) ((biased : Int) - 1075)

end Double

end Surd
