import Surd.Decimal.Basic
import Surd.Text.Blank
import Surd.Text.Digit

/-!
# Reading numbers

The text of a number is an optional sign, digits with at most one point, and an optional exponent; blanks may
stand around the whole, and the infinities and "not a number" have names. A single underscore may stand between two
digits. Digits of other scripts count as the ASCII digits of the same value, and blanks beyond ASCII as spaces.
-/

namespace Surd

/-- The number that a list of digits denotes. -/
def digitsValue (ds : List Char) : Nat := ds.foldl (fun n c => 10 * n + digitValue c) 0

/-- The digits at the front, and what follows them. -/
def digitRun (cs : List Char) : List Char × List Char := (cs.takeWhile isDigit, cs.dropWhile isDigit)

/-- A sign at the front, and what follows it. -/
def signRun : List Char → Bool × List Char
  | '-' :: rest => (true, rest)
  | '+' :: rest => (false, rest)
  | cs => (false, cs)

/-- The value of an exponent part; nothing where the text is neither empty nor one. -/
def exponentPart? : List Char → Option Int
  | [] => some 0
  | c :: rest =>
    if c = 'e' ∨ c = 'E' then
      let (negative, cs) := signRun rest
      match digitRun cs with
      | (d :: ds, []) =>
        let n : Int := digitsValue (d :: ds)
        some (if negative then -n else n)
      | _ => none
    else none

/-- The decimal that a text without a sign denotes. -/
def Decimal.ofText? (negative : Bool) (cs : List Char) : Option Decimal :=
  let (whole, rest) := digitRun cs
  let (fraction, rest) := match rest with
    | '.' :: tail => digitRun tail
    | _ => ([], rest)
  if whole.isEmpty && fraction.isEmpty then none
  else (exponentPart? rest).map fun e =>
    ⟨negative, digitsValue (whole ++ fraction), e - fraction.length⟩

/-- The ASCII character that a character of a number counts as; most characters beyond ASCII count as none. -/
def numeralChar? (c : Char) : Option Char :=
  if c.toNat < 128 then some c
  else if isBlank c then some ' '
  else asciiDigit? c

/-- The text without the underscores between two digits; there is none where an underscore stands elsewhere. -/
def ungrouped? (afterDigit : Bool) : List Char → Option (List Char)
  | [] => some []
  | c :: rest =>
    if c = '_' then
      if afterDigit && (rest.head?.map isDigit).getD false then ungrouped? false rest else none
    else (c :: ·) <$> ungrouped? (isDigit c) rest

/-- The ASCII characters that may stand around a number. -/
def isNumberBlank (c : Char) : Bool := c == ' ' || ('\t' ≤ c && c ≤ '\r')

/-- The text of a number in ASCII, without blanks around it and without underscores. -/
def plainNumeral? (cs : List Char) : Option (List Char) := do
  let ascii ← cs.mapM numeralChar?
  let body ← ungrouped? false ascii
  return ((body.dropWhile isNumberBlank).reverse.dropWhile isNumberBlank).reverse

/-- The double that a text denotes. -/
def Double.ofText? (cs : List Char) : Option Double := do
  let (negative, body) := signRun (← plainNumeral? cs)
  let name := String.ofList (body.map Char.toLower)
  if name = "inf" ∨ name = "infinity" then return .infinite negative
  else if name = "nan" then return .nan
  else return (← Decimal.ofText? negative body).toDouble

/-- The whole number that a text of digits with an optional minus denotes. -/
def intOfText? (cs : List Char) : Option Int :=
  match cs with
  | '-' :: ds => if !ds.isEmpty && ds.all isDigit then some (-(digitsValue ds : Int)) else none
  | ds => if !ds.isEmpty && ds.all isDigit then some (digitsValue ds : Int) else none

end Surd
