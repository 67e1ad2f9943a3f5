/-!
# Error texts

What the screen shows for an error: its code with the catalogue's headline, and the message below it where it says
more than the headline does.
-/

namespace Surd

/-- The catalogue of codes. -/
def headlines : List (String × String) :=
  [("2000", "Unknown function"),
   ("3003", "Division by zero"),
   ("3004", "Invalid operator"),
   ("3026", "Number too large"),
   ("3027", "Empty expression"),
   ("3030", "Unknown character"),
   ("3031", "Invalid expression"),
   ("3032", "Missing operand"),
   ("3033", "Incomplete expression"),
   ("3034", "Undefined variable"),
   ("3035", "Square root of negative number"),
   ("3036", "Logarithm of non-positive number"),
   ("3037", "Power has no real result"),
   ("3038", "Invalid AST node"),
   ("3040", "Invalid variable name"),
   ("3041", "Cannot redefine constant"),
   ("3042", "Cannot delete constant"),
   ("3043", "No value in ans"),
   ("4000", "Unknown command"),
   ("4001", "Clipboard unavailable"),
   ("4002", "Nothing to copy"),
   ("5000", "Configuration could not be saved"),
   ("5001", "Unknown setting"),
   ("5002", "Invalid setting value"),
   ("9999", "Unexpected Error")]

/-- The headline of every other code, by its first character. -/
def familyHeadline (code : String) : String :=
  match code.toList with
  | '2' :: _ => "Scientific Calculation Error"
  | '3' :: _ => "Calculator Error"
  | '4' :: _ => "UI Error"
  | '5' :: _ => "Configuration Error"
  | '9' :: _ => "Unexpected Error"
  | _ => "Unknown error"

/-- The headline of a code. -/
def headline (code : String) : String := (headlines.lookup code).getD (familyHeadline code)

/-- The message without the full stops at its end. -/
def withoutFullStops (message : String) : String :=
  String.ofList (message.toList.reverse.dropWhile (· == '.')).reverse

/-- The text shown for a code and an optional message. -/
def errorText (code : String) (message : Option String) : String :=
  let first := "Error " ++ code ++ ": " ++ headline code
  match message with
  | none => first
  | some m =>
    if m = "" ∨ withoutFullStops m = headline code then first else first ++ "\nDetails: " ++ m

end Surd
