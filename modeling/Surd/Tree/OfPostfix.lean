import Surd.Tree.Basic
import Surd.Token.Postfix
import Surd.Problem

/-!
# Trees from postfix order

A token list in postfix order is read by a machine with a stack of trees: a leaf is pushed, an operator or a
function takes its operands off the stack and pushes the tree it makes of them. The list stands for a tree when
exactly one is left.
-/

namespace Surd.Tree

/-- One token: the stack of trees after it. -/
def push (stack : List Tree) (l : Lexeme) : Except Stop (List Tree) :=
  match l, stack with
  | .number text, stack =>
    match Double.ofText? text.toList with
    | some x => .ok (.number x :: stack)
    | none => .error (.fault (.notANumeral (quoted text)))
  | .variable name, stack => .ok (.variable name :: stack)
  | .negation, t :: rest => .ok (.negate t :: rest)
  | .negation, [] => refuse .missingNegand
  | .binary op, right :: left :: rest => .ok (.binary op left right :: rest)
  | .binary op, _ => refuse (.missingOperand op.symbol)
  | .function f, t :: rest => .ok (.call f t :: rest)
  | .function f, [] => refuse (.missingArgument f)
  | l, _ => refuse (.unexpectedToken l.source)

/-- The tree that a stack and the tokens after it make. -/
def assemble (stack : List Tree) : List Token → Except Stop Tree
  | [] =>
    match stack with
    | [t] => .ok t
    | _ => refuse .incompleteExpression
  | t :: rest => do assemble (← push stack t.lexeme) rest

/-- The tree of a token list in postfix order. -/
def ofPostfix (tokens : List Token) : Except Stop Tree := assemble [] tokens

/-- The tree of a token list. -/
def ofTokens (tokens : List Token) : Except Stop Tree := do
  let postfixOrder ← (Token.toPostfix tokens : Except Fault _)
  ofPostfix postfixOrder

end Surd.Tree
