import Surd.Entries
import Surd.Problem
import Surd.Token.Lexer
import Surd.Text.Quoted

/-!
# Stores

A store binds names to numbers. It always binds the constants, which come first and cannot be changed; `ans` is
bound to the last result. Names are bound through `define`, which checks them, and results through `setAnswer`.
-/

namespace Surd

/-- The constants. -/
def constants : Entries String Number :=
  [("e", .real (.ofBits 0x4005BF0A8B145769)),
   ("pi", .real (.ofBits 0x400921FB54442D18)),
   ("PI", .real (.ofBits 0x400921FB54442D18))]

/-- The name of the last result. -/
def answerName : String := "ans"

/-- Names bound to numbers, in order. -/
structure Store where
  bindings : Entries String Number

namespace Store

/-- The store with the constants only. -/
def initial : Store := ⟨constants⟩

/-- Whether a name has the form of a variable's: a letter, then letters, digits and underscores. A line feed at the
end is not looked at. -/
def isName (name : String) : Bool :=
  match name.toList with
  | [] => false
  | c :: rest =>
    let rest := if rest.getLast? = some '\n' then rest.dropLast else rest
    isLetter c && rest.all isNameChar

def isConstant (name : String) : Bool := constants.has name

/-- Bind a name. The names of functions and of constants cannot be bound. -/
def define (s : Store) (name : String) (value : Number) : Except Problem Store :=
  if !isName name || functionNames.contains name then .error (.invalidName name)
  else if isConstant name then .error (.constantRedefined name)
  else .ok ⟨s.bindings.put name value⟩

/-- Bind the last result. -/
def setAnswer (s : Store) (value : Number) : Store := ⟨s.bindings.put answerName value⟩

/-- Remove a name, which need not be bound. -/
def delete (s : Store) (name : String) : Except Problem Store :=
  if isConstant name then .error (.constantDeleted name) else .ok ⟨s.bindings.erase name⟩

/-- The store without the names that were bound in it. -/
def clear (_ : Store) : Store := initial

def get? (s : Store) (name : String) : Option Number := Entries.get? name s.bindings

/-- The number under a name. -/
def get (s : Store) (name : String) : Except Fault Number :=
  match s.get? name with
  | some a => .ok a
  | none => .error (.missingKey (quoted name))

def has (s : Store) (name : String) : Bool := s.bindings.has name

def names (s : Store) : List String := s.bindings.names

def size (s : Store) : Nat := s.bindings.length

/-- The bindings beside the constants. -/
def userBindings (s : Store) : Entries String Number := s.bindings.filter fun b => !isConstant b.1

/-- The description of a store that messages and logs show. -/
def describe (s : Store) : String :=
  let binding (b : String × Number) := quoted b.1 ++ ": " ++ b.2.text
  "VariableStore(\x7b" ++ ", ".intercalate (s.bindings.map binding) ++ "\x7d)"

/-- Whether a text goes on from the last result: it starts with an operator that has an operand on its left. A
minus sign does not count, it may be a negation. -/
def continues (cs : List Char) : Bool :=
  match cs with
  | c :: _ => c == '+' || c == '*' || c == '/' || c == '^'
  | [] => false

/-- A text with the last result put in front where it goes on from it. -/
def applyAnswer (s : Store) (text : String) : Except Problem String :=
  let stripped := trimLeft text.toList
  if continues stripped then
    if s.has answerName then .ok (answerName ++ String.ofList stripped) else .error .noAnswer
  else .ok text

end Store

end Surd
