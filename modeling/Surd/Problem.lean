import Surd.Fault
import Surd.Number

/-!
# Problems

Everything the calculator can object to, as causes: what is wrong with a text, with a value, with a name, with a
setting or with a command. Each has a code of four digits and a message; `ErrorText` puts the two on the screen.

A computation stops with a problem or with a fault. A fault that reaches the result of an evaluation is reported
under the code 9999.
-/

namespace Surd

/-- Why the calculator refuses. -/
inductive Problem where
  /-- No token starts with this character. -/
  | unknownCharacter (character : Char) (position : Nat)
  | missingNegand
  | missingOperand (operator : String)
  | missingArgument (function : String)
  | unexpectedToken (text : String)
  | incompleteExpression
  | undefinedVariables (names : List String)
  | overflow
  | invalidNode (shown : String)
  | invalidBinary (operator : String)
  | unknownOperator (operator : String)
  | unknownFunction (name : String)
  | notTrigonometric (name : String)
  | noRealPower (base exponent : Double)
  | divisionByZero
  | negativeRadicand (number : Number)
  | nonPositiveLogarithm (function : String) (number : Number)
  | invalidName (name : String)
  | constantRedefined (name : String)
  | constantDeleted (name : String)
  | noAnswer
  | settingsNotSaved (reason : String)
  | unknownSetting (name : String)
  | invalidSetting (name shown : String)
  | unknownCommand (name : String)
  | clipboardUnavailable (reason : String)
  | nothingToCopy

namespace Problem

/-- The code of a problem: its first digit names the part of the calculator that refuses. -/
def code : Problem → String
  | unknownFunction _ => "2000"
  | notTrigonometric _ => "2000"
  | divisionByZero => "3003"
  | unknownOperator _ => "3004"
  | overflow => "3026"
  | unknownCharacter _ _ => "3030"
  | missingNegand => "3032"
  | missingOperand _ => "3032"
  | missingArgument _ => "3032"
  | unexpectedToken _ => "3033"
  | incompleteExpression => "3033"
  | undefinedVariables _ => "3034"
  | negativeRadicand _ => "3035"
  | nonPositiveLogarithm _ _ => "3036"
  | noRealPower _ _ => "3037"
  | invalidNode _ => "3038"
  | invalidBinary _ => "3038"
  | invalidName _ => "3040"
  | constantRedefined _ => "3041"
  | constantDeleted _ => "3042"
  | noAnswer => "3043"
  | unknownCommand _ => "4000"
  | clipboardUnavailable _ => "4001"
  | nothingToCopy => "4002"
  | settingsNotSaved _ => "5000"
  | unknownSetting _ => "5001"
  | invalidSetting _ _ => "5002"

/-- The message of a problem. -/
def message : Problem → String
  | unknownCharacter c p => "Unknown character '" ++ c.toString ++ "' at position " ++ writeInt p
  | missingNegand => "Invalid expression: missing operand for unary minus"
  | missingOperand op => "Invalid expression: missing operand for '" ++ op ++ "'"
  | missingArgument f => "Invalid expression: missing argument for '" ++ f ++ "'"
  | unexpectedToken t => "Invalid expression: unexpected '" ++ t ++ "'"
  | incompleteExpression => "Invalid expression: incomplete expression"
  | undefinedVariables names => "Undefined variable(s): " ++ ", ".intercalate names
  | overflow => "Number too large (Arithmetic overflow)."
  | invalidNode shown => "Invalid AST node: " ++ shown
  | invalidBinary op => "Invalid binary operator: " ++ op
  | unknownOperator op => "Unknown operator: " ++ op
  | unknownFunction name => "Unknown function: " ++ name
  | notTrigonometric name => "Sin/Cos/Tan was recognized, but '" ++ name ++ "' couldn't be assigned."
  | noRealPower x y => "Power has no real result: " ++ x.text ++ "^" ++ y.text
  | divisionByZero => "Division by zero"
  | negativeRadicand a => "Square root of negative number: sqrt(" ++ a.text ++ ")"
  | nonPositiveLogarithm f a =>
    (if f = "log" then "Logarithm" else "Natural logarithm") ++ " of non-positive number: " ++ f ++ "(" ++
      a.text ++ ")"
  | invalidName name => "Invalid variable name: " ++ name
  | constantRedefined name => "Cannot redefine constant: " ++ name
  | constantDeleted name => "Cannot delete constant: " ++ name
  | noAnswer => "No value in ans"
  | settingsNotSaved reason => "Settings could not be saved: " ++ reason
  | unknownSetting name => "Unknown setting: " ++ name
  | invalidSetting name shown => "Invalid value for " ++ name ++ ": " ++ shown
  | unknownCommand name => "Unknown command: " ++ name
  | clipboardUnavailable reason => "Clipboard unavailable: " ++ reason
  | nothingToCopy => "Nothing to copy."

end Problem

/-- Why a computation stops. -/
inductive Stop where
  | problem (p : Problem)
  | fault (f : Fault)

namespace Stop

/-- The code under which the result of an evaluation reports a stop. -/
def code : Stop → String
  | problem p => p.code
  | fault _ => "9999"

/-- The message with which the result of an evaluation reports a stop. -/
def message : Stop → String
  | problem p => p.message
  | fault f => "Unexpected Error: " ++ f.message

end Stop

/-- A computation that can only meet faults is one that can stop. -/
instance : MonadLift (Except Fault) (Except Stop) where
  monadLift
    | .ok a => .ok a
    | .error f => .error (.fault f)

/-- Stop with a problem. -/
def refuse {α : Type} (p : Problem) : Except Stop α := .error (.problem p)

end Surd
