/-!
# Tokens

An expression is read as a list of tokens: numerals, names, operators, parentheses and commas, each with the
position of its first character in the source. A minus sign is either the subtraction of two operands or the
negation of the one that follows, and these are different tokens. A parenthesis or comma keeps the text it is written
with, which in a list of tokens that was not read from a text may be any.
-/

namespace Surd

/-- An operation on two operands. An `other` symbol is kept as it stands and has no rank and no meaning. -/
inductive BinaryOp where
  | add
  | sub
  | mul
  | div
  | pow
  | other (symbol : String)
  deriving DecidableEq, Repr

namespace BinaryOp

/-- The symbol of an operation. -/
def symbol : BinaryOp → String
  | add => "+"
  | sub => "-"
  | mul => "*"
  | div => "/"
  | pow => "^"
  | other s => s

/-- The operation with a symbol. -/
def ofSymbol (s : String) : BinaryOp :=
  if s = "+" then add
  else if s = "-" then sub
  else if s = "*" then mul
  else if s = "/" then div
  else if s = "^" then pow
  else other s

/-- How strongly an operation binds. -/
def rank? : BinaryOp → Option Nat
  | add => some 1
  | sub => some 1
  | mul => some 2
  | div => some 2
  | pow => some 3
  | other _ => none

end BinaryOp

/-- What a token stands for. -/
inductive Lexeme where
  | number (text : String)
  | variable (name : String)
  | function (name : String)
  | binary (op : BinaryOp)
  | negation
  | opening (text : String)
  | closing (text : String)
  | comma (text : String)
  deriving DecidableEq, Repr

namespace Lexeme

/-- The characters that a token is written with. -/
def source : Lexeme → String
  | number t => t
  | .variable name => name
  | function name => name
  | binary op => op.symbol
  | negation => "-"
  | opening t => t
  | closing t => t
  | comma t => t

/-- The name a token goes by. It is its source, but for the negation, which the subtraction keeps apart from. -/
def label : Lexeme → String
  | negation => "u-"
  | l => l.source

/-- How strongly an operator binds: the negation binds strongest. -/
def rank? : Lexeme → Option Nat
  | binary op => op.rank?
  | negation => some 4
  | _ => none

def isOperator : Lexeme → Bool
  | binary _ => true
  | negation => true
  | _ => false

def isBinary : Lexeme → Bool
  | binary _ => true
  | _ => false

def isOpening : Lexeme → Bool
  | opening _ => true
  | _ => false

/-- Whether a minus sign after this token, or after none, is a negation. -/
def beforeNegation : Option Lexeme → Bool
  | none => true
  | some l => l.isOperator || l.isOpening

end Lexeme

/-- A token and the position of its first character, counted from zero. -/
structure Token where
  lexeme : Lexeme
  position : Nat
  deriving DecidableEq, Repr

/-- The functions of one argument. -/
def functionNames : List String := ["sqrt", "abs", "sin", "cos", "tan", "log", "ln"]

end Surd
