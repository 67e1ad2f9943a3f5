import Surd.Token.Lexer

/-!
# Checking tokens

Before a token list is taken apart, each token is checked against its neighbours, and the parentheses are counted.
All flaws are reported, in the order of the tokens, each with the position of a token; an unclosed parenthesis is
reported last, at the last token.
-/

namespace Surd

/-- What is wrong at a token. -/
inductive Flaw where
  | unmatchedClosing
  | misplacedOperator (operator : String)
  | operandRequired (operator : String)
  | parenthesesRequired (function : String)
  | unclosedOpening
  /-- The text has no tokens at all. -/
  | unreadable (p : Problem)

/-- The message of a flaw. -/
def Flaw.message : Flaw → String
  | unmatchedClosing => "Unmatched closing parenthesis"
  | misplacedOperator op => "Invalid operator placement for '" ++ op ++ "'"
  | operandRequired op => "Operator '" ++ op ++ "' requires an operand"
  | parenthesesRequired f => "Function '" ++ f ++ "' must be followed by parentheses"
  | unclosedOpening => "Unclosed parenthesis"
  | unreadable p => p.message

/-- A flaw and where it is. -/
structure Complaint where
  flaw : Flaw
  position : Nat

namespace Lexeme

/-- By how much a token changes the depth of parentheses. -/
def nesting : Lexeme → Int
  | opening _ => 1
  | closing _ => -1
  | _ => 0

/-- The flaws of a token between two neighbours, `depth` being the depth of parentheses after it. -/
def flaws (last next : Option Lexeme) (depth : Int) : Lexeme → List Flaw
  | closing _ => if depth < 0 then [.unmatchedClosing] else []
  | binary op =>
    (if (last.map isOperator).getD true then [.misplacedOperator op.symbol] else []) ++
      (if (next.map isBinary).getD true then [.operandRequired op.symbol] else [])
  | negation => if (next.map isBinary).getD true then [.operandRequired "-"] else []
  | function name => if (next.map isOpening).getD false then [] else [.parenthesesRequired name]
  | _ => []

end Lexeme

namespace Token

/-- The complaints about the tokens that follow `last` at a depth of parentheses. -/
def complaints (last : Option Lexeme) (depth : Int) : List Token → List Complaint
  | [] => []
  | t :: rest =>
    let depth := depth + t.lexeme.nesting
    (t.lexeme.flaws last (rest.head?.map Token.lexeme) depth).map (⟨·, t.position⟩) ++
      complaints (some t.lexeme) depth rest

/-- How many more parentheses are opened than closed. -/
def balance (tokens : List Token) : Int := tokens.foldl (fun depth t => depth + t.lexeme.nesting) 0

/-- All complaints about a token list; there are none when it is well formed. -/
def check (tokens : List Token) : List Complaint :=
  complaints none 0 tokens ++
    (if 0 < balance tokens then [⟨.unclosedOpening, (tokens.getLast?.map Token.position).getD 0⟩] else [])

/-- All complaints about a text. -/
def checkText (cs : List Char) : List Complaint :=
  match ofText cs with
  | .ok tokens => check tokens
  | .error p => [⟨.unreadable p, match p with | .unknownCharacter _ position => position | _ => 0⟩]

end Token

end Surd
