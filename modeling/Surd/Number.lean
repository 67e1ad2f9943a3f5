import Surd.Fault
import Surd.Double.Arithmetic
import Surd.Double.Elementary
import Surd.Decimal.Layout
import Surd.Decimal.Reading

/-!
# Numbers

A number of the calculator is a whole number of any size or a double, and the two are kept apart: whole numbers
are exact under addition, subtraction and multiplication, while an operation with a double makes the other operand
a double first. Division always yields a double. Comparison is exact in every case.
-/

namespace Surd

-- Powers are those of core, also in a module that sees the instance of a larger library.
attribute [local instance (2000)] instPowNat

/-- A whole number or a double. -/
inductive Number where
  | int (n : Int)
  | real (x : Double)
  deriving DecidableEq

namespace Number

instance : OfNat Number n := ⟨.int n⟩

/-- Noise below this size counts as zero, or as a whole number: 10 ^ -12. -/
def tolerance : Double := Decimal.toDouble ⟨false, 1, -12⟩

/-- The number as a double. -/
def toDouble : Number → Except Fault Double
  | int n =>
    let x := Double.ofInt n
    if x.isInfinite then .error .integerTooLarge else .ok x
  | real x => .ok x

/-! ## Arithmetic -/

/-- An operation that is exact on whole numbers and rounds on doubles. -/
def combine (exact : Int → Int → Int) (rounded : Double → Double → Double) (a b : Number) :
    Except Fault Number :=
  match a, b with
  | int m, int n => .ok (int (exact m n))
  | a, b => do
    let x ← a.toDouble
    let y ← b.toDouble
    return real (rounded x y)

/-- The sum. -/
def add (a b : Number) : Except Fault Number := combine (· + ·) .add a b

/-- The difference. -/
def sub (a b : Number) : Except Fault Number := combine (· - ·) .sub a b

/-- The product. -/
def mul (a b : Number) : Except Fault Number := combine (· * ·) .mul a b

/-- The quotient of two whole numbers, rounded once. -/
def quotient (m n : Int) : Except Fault Double :=
  if n = 0 then .error .divisionByZero
  else
    let x := Double.nearest (decide (m < 0) != decide (n < 0)) m.natAbs n.natAbs
    if x.isInfinite then .error .quotientTooLarge else .ok x

/-- Whether a double is one of the two zeros. -/
def doubleIsZero (x : Double) : Bool := x.compareInt? 0 == some .eq

/-- The quotient. -/
def div (a b : Number) : Except Fault Number :=
  match a, b with
  | int m, int n => real <$> quotient m n
  | a, b => do
    let x ← a.toDouble
    let y ← b.toDouble
    if doubleIsZero y then throw .doubleDivisionByZero
    return real (x.div y)

/-- The opposite number. -/
def neg : Number → Number
  | int n => int (-n)
  | real x => real x.neg

/-- The absolute value. -/
def abs : Number → Number
  | int n => int n.natAbs
  | real x => real x.abs

@[simp] theorem add_int (m n : Int) : add (int m) (int n) = .ok (int (m + n)) := rfl

@[simp] theorem sub_int (m n : Int) : sub (int m) (int n) = .ok (int (m - n)) := rfl

@[simp] theorem mul_int (m n : Int) : mul (int m) (int n) = .ok (int (m * n)) := rfl

@[simp] theorem neg_int (n : Int) : neg (int n) = int (-n) := rfl

@[simp] theorem abs_int (n : Int) : abs (int n) = int n.natAbs := rfl

/-! ## Order -/

/-- How two numbers compare; nothing where one is not a number. -/
def compare? : Number → Number → Option Ordering
  | int m, int n => some (compare m n)
  | int m, real y => (y.compareInt? m).map Ordering.swap
  | real x, int n => x.compareInt? n
  | real x, real y => x.compare? y

def lt (a b : Number) : Bool := a.compare? b == some .lt

def le (a b : Number) : Bool := a.lt b || a.compare? b == some .eq

/-- Equality of value: zero has two signs and one value, and "not a number" differs from itself. -/
def equal (a b : Number) : Bool := a.compare? b == some .eq

def isZero (a : Number) : Bool := a.equal 0

def isNegative (a : Number) : Bool := a.lt 0

/-- Whether the number is below the tolerance in size. -/
def isNegligible (a : Number) : Bool := a.abs.lt (real tolerance)

def isInfinite : Number → Bool
  | int _ => false
  | real x => x.isInfinite

/-- Whether the number has a finite double. -/
def isFinite : Number → Bool
  | int n => !(Double.ofInt n).isInfinite
  | real x => x.isFinite

/-! ## Whole numbers -/

/-- Whether the number is whole. -/
def isWhole : Number → Bool
  | int _ => true
  | real x => x.isWhole

/-- The whole number left when the fraction is cut off. -/
def truncate : Number → Except Fault Int
  | int n => .ok n
  | real x =>
    match x.truncate? with
    | some n => .ok n
    | none => .error (if x.isNaN then .nanToInteger else .infinityToInteger)

/-- A double within the tolerance of a whole number below 2 ^ 53 becomes that whole number, the tolerance growing
with the size of the number; every other number stays as it is. -/
def normalize : Number → Number
  | int n => int n
  | real x =>
    match x.round? with
    | none => real x
    | some n =>
      let scale := if (Double.ofInt 1).compare? x.abs == some .lt then x.abs else Double.ofInt 1
      let distance := (x.sub (Double.ofInt n)).abs
      if distance.compare? (tolerance.mul scale) == some .lt ∧ n.natAbs < 2 ^ (53 : Nat) then int n else real x

@[simp] theorem normalize_int (n : Int) : normalize (int n) = int n := rfl

/-! ## Functions -/

/-- The square root. -/
def sqrt (a : Number) : Except Fault Double := do
  let x ← a.toDouble
  if x.compareInt? 0 == some .lt then throw .mathDomain
  return x.sqrt

/-- A logarithm, given for doubles. A whole number beyond the range of doubles is split into a double from one
half up to one and a power of two. -/
def logarithm (f : Double → Double) : Number → Except Fault Double
  | real x =>
    if x.isNaN then .ok x
    else if (x.compareInt? 0) != some .gt then .error .mathDomain
    else if x.isInfinite then .ok x
    else .ok (f x)
  | int n =>
    if n ≤ 0 then .error .mathDomain
    else
      let x := Double.ofInt n
      if x.isInfinite then
        let size := n.natAbs.log2 + 1
        let y := Double.nearest false n.natAbs (2 ^ size)
        let (y, size) := if y.compareInt? 1 == some .eq then (Double.nearest false 1 2, size + 1) else (y, size)
        .ok ((f y).add ((f (Double.ofInt 2)).mul (Double.ofInt size)))
      else .ok (f x)

/-- Sine, cosine or tangent, given for doubles. -/
def periodic (f : Double → Double) (a : Number) : Except Fault Double := do
  let x ← a.toDouble
  if x.isNaN then return x
  if x.isInfinite then throw .mathDomain
  let y := f x
  if y.isFinite then return y else throw .mathDomain

/-- Degrees as radians. -/
def radians (a : Number) : Except Fault Double := do
  let x ← a.toDouble
  return x.mul ((Double.ofBits 0x400921FB54442D18).div (Double.ofInt 180))

/-! ## Writing and reading -/

/-- The number in full, a double with the fewest digits that read back. -/
def text : Number → String
  | int n => writeInt n
  | real x => x.text

/-- The number as a calculator shows it: whole numbers without a fraction, others with ten significant digits.
Whole doubles are written in full below 10 ^ 16. -/
def shown : Number → String
  | int n => writeInt n
  | real x =>
    match x.truncate? with
    | some n => if x.isWhole ∧ n.natAbs < 10 ^ (16 : Nat) then writeInt n else x.tenDigits
    | none => x.tenDigits

/-- The number that a text denotes: digits with an optional minus are a whole number, all else is a double. -/
def ofText? (cs : List Char) : Option Number :=
  match intOfText? cs with
  | some n => some (int n)
  | none => (Double.ofText? cs).map real

end Number

/-- The power of doubles: where an operand is infinite or not a number it follows the limits of the function, and
elsewhere it is what `pow` gives. A zero to a negative power and a negative number to a power that is not whole
have no value. -/
def Elementary.power (lib : Elementary) (x y : Double) : Except Fault Double :=
  let one := Double.ofInt 1
  let isOne (z : Double) := z.compareInt? 1 == some .eq
  let positive (z : Double) := z.compareInt? 0 == some .gt
  let oddWhole (z : Double) := z.isWhole && (match z.truncate? with | some n => n % 2 != 0 | none => false)
  if x.isNaN then .ok (if Number.doubleIsZero y then one else x)
  else if y.isNaN then .ok (if isOne x then one else y)
  else if x.isInfinite then
    if positive y then .ok (if oddWhole y then x else x.abs)
    else if Number.doubleIsZero y then .ok one
    else .ok (.zero (oddWhole y && x.negative))
  else if y.isInfinite then
    if isOne x.abs then .ok one
    else if positive y == (x.abs.compareInt? 1 == some .gt) then .ok y.abs
    else .ok (.zero false)
  else
    let r := lib.pow x y
    if r.isNaN then .error .mathDomain
    else if r.isInfinite then .error (if Number.doubleIsZero x then .mathDomain else .mathRange)
    else .ok r

end Surd
