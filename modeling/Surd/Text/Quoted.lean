import Surd.Text.Printable
import Surd.Text.CodePoint

/-!
# Quoted text

How a text is shown inside a message: in single quotes, or in double quotes where it holds a single quote and no
double one, with a backslash before the quote in use and before a backslash, short escapes for tab, line feed and
carriage return, and in hexadecimal the number of every other character that is not printable and of every half of a
UTF-16 pair.
-/

namespace Surd

/-- The hexadecimal digit of a number below sixteen. -/
def hexDigit (n : Nat) : Char := Nat.digitChar (n % 16)

/-- `n` in hexadecimal, with the last `width` digits. -/
def hexText : (width n : Nat) → List Char
  | 0, _ => []
  | width + 1, n => hexText width (n / 16) ++ [hexDigit n]

/-- One character of a text quoted with `quote`. -/
def quotedChar (quote c : Char) : List Char :=
  if c = quote ∨ c = '\\' then ['\\', c]
  else if c = '\t' then ['\\', 't']
  else if c = '\n' then ['\\', 'n']
  else if c = '\r' then ['\\', 'r']
  else if isPrintable c then [c]
  else if c.toNat < 0x100 then '\\' :: 'x' :: hexText 2 c.toNat
  else if c.toNat < 0x10000 then '\\' :: 'u' :: hexText 4 c.toNat
  else '\\' :: 'U' :: hexText 8 c.toNat

/-- The quote that a text is put into. -/
def quoteFor (cs : List Char) : Char := if cs.contains '\'' && !cs.contains '"' then '"' else '\''

/-- One code point of a text quoted with `quote`. -/
def quotedPoint (quote : Char) (p : CodePoint) : List Char :=
  match p.char? with
  | some c => quotedChar quote c
  | none => '\\' :: 'u' :: hexText 4 p.value

/-- The code points in quotes. -/
def quotedPoints (ps : CodePoints) : String :=
  let quote := quoteFor (ps.filterMap CodePoint.char?)
  String.ofList (quote :: ps.flatMap (quotedPoint quote) ++ [quote])

/-- The text in quotes. -/
def quoted (s : String) : String :=
  let quote := quoteFor s.toList
  String.ofList (quote :: s.toList.flatMap (quotedChar quote) ++ [quote])

end Surd
