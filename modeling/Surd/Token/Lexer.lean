import Surd.Token.Basic
import Surd.Problem
import Surd.Text.Blank

/-!
# Reading tokens

The tokens tile the source: each covers the characters it is written with, and what lies between them is blank.
Numerals have at most one point, which a digit precedes or follows; names start with an ASCII letter and go on with
ASCII letters, digits and underscores. The first character at which no token can start is a problem.
-/

namespace Surd

/-- An ASCII letter. -/
def isLetter (c : Char) : Bool := c.isAlpha

/-- A character of a name after its first. -/
def isNameChar (c : Char) : Bool := c.isAlphanum || c == '_'

/-- The numeral at the front of a text: digits, and a point with the digits after it. -/
def numeral (cs : List Char) : List Char :=
  match cs.dropWhile isDigit with
  | '.' :: rest => cs.takeWhile isDigit ++ '.' :: rest.takeWhile isDigit
  | _ => cs.takeWhile isDigit

/-- Whether a numeral starts with this character before this rest. -/
def startsNumeral (c : Char) (rest : List Char) : Bool :=
  isDigit c || (c == '.' && (rest.head?.map isDigit).getD false)

/-- The token of a name. -/
def Lexeme.ofName (name : String) : Lexeme :=
  if functionNames.contains name then .function name else .variable name

/-- The token of a single character. -/
def Lexeme.ofSymbol? (last : Option Lexeme) (c : Char) : Option Lexeme :=
  match c with
  | '+' => some (.binary .add)
  | '-' => some (if Lexeme.beforeNegation last then .negation else .binary .sub)
  | '*' => some (.binary .mul)
  | '/' => some (.binary .div)
  | '^' => some (.binary .pow)
  | '(' => some (.opening "(")
  | ')' => some (.closing ")")
  | ',' => some (.comma ",")
  | _ => none

/-- The token that starts with this character before this rest, after the token `last`. -/
def Lexeme.read? (last : Option Lexeme) (c : Char) (rest : List Char) : Option Lexeme :=
  if startsNumeral c rest then some (.number (String.ofList (numeral (c :: rest))))
  else if isLetter c then some (Lexeme.ofName (String.ofList (c :: rest.takeWhile isNameChar)))
  else Lexeme.ofSymbol? last c

namespace Token

/-- The tokens of a text that starts at `position` and follows the token `last`. -/
def scan (position : Nat) (last : Option Lexeme) : List Char → Except Problem (List Token)
  | [] => .ok []
  | c :: rest =>
    if isBlank c then scan (position + 1) last rest
    else
      match Lexeme.read? last c rest with
      | none => .error (.unknownCharacter c position)
      | some l => do
        let size := l.source.length
        let tokens ← scan (position + size) (some l) (rest.drop (size - 1))
        return ⟨l, position⟩ :: tokens
termination_by cs => cs.length
decreasing_by
  · simp
  · simp only [List.length_drop, List.length_cons]; omega

/-- The tokens of a text. -/
def ofText (cs : List Char) : Except Problem (List Token) := scan 0 none cs

end Token

end Surd
