import Surd.Token.Check
import Surd.Tree.OfPostfix

/-!
# Parsed expressions

A text is read in three steps: its tokens, the check of the tokens, the tree. `Parsed` is where that ends: a tree,
or the reason why there is none, with the tokens there are in either case.
-/

namespace Surd

/-- Why a text has no tree. -/
inductive Rejection where
  /-- A character starts no token. -/
  | unreadable (p : Problem)
  /-- The text is blank. -/
  | empty
  /-- The check of the tokens found this flaw first. -/
  | flawed (flaw : Flaw)
  /-- The tokens make no tree. -/
  | shapeless (stop : Stop)

namespace Rejection

/-- The code under which a rejection is reported. -/
def code : Rejection → String
  | unreadable p => p.code
  | empty => "3027"
  | flawed _ => "3031"
  | shapeless s => s.code

/-- The message of a rejection. -/
def message : Rejection → String
  | unreadable p => p.message
  | empty => "Empty expression"
  | flawed f => f.message
  | shapeless s => s.message

end Rejection

/-- The outcome of reading a text. -/
inductive Parsed where
  | accepted (tokens : List Token) (tree : Tree)
  | rejected (tokens : List Token) (reason : Rejection)

namespace Parsed

/-- The outcome for a list of tokens. -/
def ofTokens (tokens : List Token) : Parsed :=
  if tokens.isEmpty then rejected tokens .empty
  else
    match Token.check tokens with
    | c :: _ => rejected tokens (.flawed c.flaw)
    | [] =>
      match Tree.ofTokens tokens with
      | .ok t => accepted tokens t
      | .error s => rejected tokens (.shapeless s)

/-- The outcome for a text. -/
def ofText (cs : List Char) : Parsed :=
  match Token.ofText cs with
  | .error p => rejected [] (.unreadable p)
  | .ok tokens => ofTokens tokens

def tokens : Parsed → List Token
  | accepted ts _ => ts
  | rejected ts _ => ts

def tree? : Parsed → Option Tree
  | accepted _ t => some t
  | rejected _ _ => none

def rejection? : Parsed → Option Rejection
  | accepted _ _ => none
  | rejected _ r => some r

/-- The variables of the expression in the order in which they first appear; none without a tree. -/
def variableNames (p : Parsed) : List String := (p.tree?.map Tree.variableNames).getD []

/-- A list of texts in brackets, each one quoted. -/
def quotedList (names : List String) : String := "[" ++ ", ".intercalate (names.map quoted) ++ "]"

/-- The description of an outcome that messages and logs show. -/
def describe : Parsed → String
  | accepted _ t => "ParsedExpression(ast=" ++ t.describe ++ ", variables=" ++ quotedList t.variableNames ++ ")"
  | rejected _ r => "ParsedExpression(error=" ++ quoted r.message ++ ")"

end Parsed

end Surd
