import Surd.Number
import Surd.Entries
import Surd.Text.Quoted

/-!
# JSON values

The values of a settings file. Numbers keep whole numbers and doubles apart, and an object keeps the order in which
its names first appear. Texts and names are code points, since an escape may write half of a UTF-16 pair.
-/

namespace Surd

/-- A JSON value. -/
inductive Json where
  | null
  | bool (b : Bool)
  | number (n : Number)
  | string (s : CodePoints)
  | array (items : List Json)
  | object (members : List (CodePoints × Json))

namespace Json

/-- Whether a value counts as switched on: not null, not false, not zero and not empty. -/
def isOn : Json → Bool
  | null => false
  | bool b => b
  | number n => !n.isZero
  | string s => !s.isEmpty
  | array items => !items.isEmpty
  | object members => !members.isEmpty

/-- The value as a number, where it counts as one: true is one and false is zero. -/
def number? : Json → Option Number
  | bool b => some (if b then 1 else 0)
  | number n => some n
  | _ => none

/-- The name of the kind of a value, as messages about values that do not compare have it. -/
def kind : Json → String
  | null => "NoneType"
  | bool _ => "bool"
  | number (.int _) => "int"
  | number (.real _) => "float"
  | string _ => "str"
  | array _ => "list"
  | object _ => "dict"

mutual
/-- The description of a value that messages show, texts in quotes. -/
def describe : Json → String
  | null => "None"
  | bool b => if b then "True" else "False"
  | number n => n.text
  | string s => quotedPoints s
  | array items => "[" ++ ", ".intercalate (describeItems items) ++ "]"
  | object members => "\x7b" ++ ", ".intercalate (describeMembers members) ++ "\x7d"

/-- The descriptions of the items of an array. -/
def describeItems : List Json → List String
  | [] => []
  | v :: rest => describe v :: describeItems rest

/-- The descriptions of the members of an object. -/
def describeMembers : List (CodePoints × Json) → List String
  | [] => []
  | (name, v) :: rest => (quotedPoints name ++ ": " ++ describe v) :: describeMembers rest
end

/-- The description of a value, a text standing for itself. -/
def label : Json → String
  | string s => s.shown
  | v => v.describe

end Json

end Surd
