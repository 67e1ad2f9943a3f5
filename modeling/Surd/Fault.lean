/-!
# Faults

A fault is an operation on plain numbers, texts or files that has no answer: an overflow, a division by zero, a
logarithm of zero. The calculator's own error catalogue is `Problem`; a fault is what is left outside it.
-/

namespace Surd

/-- Why an operation has no answer. -/
inductive Fault where
  /-- A whole number beyond the range of doubles was needed as a double. -/
  | integerTooLarge
  /-- The quotient of two whole numbers is beyond the range of doubles. -/
  | quotientTooLarge
  /-- A whole number was divided by the whole number zero. -/
  | divisionByZero
  /-- A division of doubles by zero. -/
  | doubleDivisionByZero
  /-- An elementary function outside its domain. -/
  | mathDomain
  /-- An elementary function whose value is beyond the range of doubles. -/
  | mathRange
  /-- An infinity was needed as a whole number. -/
  | infinityToInteger
  /-- "Not a number" was needed as a whole number. -/
  | nanToInteger
  /-- An infinity was needed as a fraction. -/
  | infinityToRatio
  /-- "Not a number" was needed as a fraction. -/
  | nanToRatio
  /-- A power of a radical expression with this exponent, written out, is not defined. -/
  | exponentRefused (shown : String)
  /-- A double was needed as a whole number. -/
  | notAnInteger
  /-- A decimal with more digits than are kept was asked for. -/
  | decimalTooLong
  /-- A text that denotes no number, quoted. -/
  | notANumeral (quoted : String)
  /-- No entry under this key, quoted. -/
  | missingKey (quoted : String)
  /-- Values of these kinds do not compare by this relation. -/
  | incomparable (relation left right : String)
  /-- A history was asked for with fewer than no entries. -/
  | negativeCapacity
  /-- A history was asked for with more entries than can be counted. -/
  | capacityTooLarge
  /-- A power of doubles in a product of factors is beyond the range of doubles. -/
  | factorTooLarge
  /-- A JSON text is nested too deeply. -/
  | nestedTooDeep
  /-- A directory stands where the settings file should be. -/
  | directory
  /-- The settings file is not UTF-8. -/
  | undecodable
  deriving DecidableEq, Repr

/-- The text of a fault. -/
def Fault.message : Fault → String
  | integerTooLarge => "int too large to convert to float"
  | quotientTooLarge => "integer division result too large for a float"
  | divisionByZero => "division by zero"
  | doubleDivisionByZero => "float division by zero"
  | mathDomain => "math domain error"
  | mathRange => "math range error"
  | infinityToInteger => "cannot convert float infinity to integer"
  | nanToInteger => "cannot convert float NaN to integer"
  | infinityToRatio => "cannot convert Infinity to integer ratio"
  | nanToRatio => "cannot convert NaN to integer ratio"
  | exponentRefused shown => "Exponent must be a non-negative integer, got " ++ shown
  | notAnInteger => "'float' object cannot be interpreted as an integer"
  | decimalTooLong => "decimal too long"
  | notANumeral quoted => "could not convert string to float: " ++ quoted
  | missingKey quoted => quoted
  | incomparable relation left right =>
    "'" ++ relation ++ "' not supported between instances of '" ++ left ++ "' and '" ++ right ++ "'"
  | negativeCapacity => "maxlen must be non-negative"
  | capacityTooLarge => "Python int too large to convert to C ssize_t"
  | factorTooLarge => "(34, 'Numerical result out of range')"
  | nestedTooDeep => "maximum recursion depth exceeded"
  | directory => "the settings file is a directory"
  | undecodable => "the settings file is not UTF-8"

end Surd
