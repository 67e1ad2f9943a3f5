import Surd.Problem

/-!
# Named functions

The functions of one argument: the square root of a number that is not negative, the absolute value, the
trigonometric functions of an angle in radians or degrees, and the decimal and the natural logarithm of a positive
number.
-/

namespace Surd.Function

/-- The square root; a negative number has none. -/
def sqrt (a : Number) : Except Stop Double := do
  if a.isNegative then refuse (.negativeRadicand a)
  a.sqrt

/-- A trigonometric function, by name. The angle is converted before the name is looked at. -/
def trigonometric (lib : Elementary) (name : String) (a : Number) (degrees : Bool) : Except Stop Double := do
  let a ← if degrees then Number.real <$> (a.radians : Except Fault Double) else Except.ok a
  if name = "sin" then a.periodic lib.sin
  else if name = "cos" then a.periodic lib.cos
  else if name = "tan" then a.periodic lib.tan
  else refuse (.notTrigonometric name)

/-- A logarithm, by name: `log` is decimal and every other name natural. -/
def logarithm (lib : Elementary) (name : String) (a : Number) : Except Stop Double := do
  if a.le 0 then refuse (.nonPositiveLogarithm name a)
  if name = "log" then a.logarithm lib.log10 else a.logarithm lib.log

/-- A function, by name. -/
def apply (lib : Elementary) (name : String) (a : Number) (degrees : Bool) : Except Stop Number :=
  if name = "sqrt" then Number.real <$> sqrt a
  else if name = "abs" then .ok a.abs
  else if name = "sin" ∨ name = "cos" ∨ name = "tan" then Number.real <$> trigonometric lib name a degrees
  else if name = "log" ∨ name = "ln" then Number.real <$> logarithm lib name a
  else refuse (.unknownFunction name)

end Surd.Function
