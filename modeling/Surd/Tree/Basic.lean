import Surd.Token.Basic
import Surd.Decimal.Layout
import Surd.Text.Quoted

/-!
# Expression trees

The tree of an expression has numbers and variables as leaves. A tree carries data only; what it is worth is the
business of `Evaluation`.
-/

namespace Surd

/-- An expression tree. -/
inductive Tree where
  | number (value : Double)
  | variable (name : String)
  | negate (operand : Tree)
  | binary (op : BinaryOp) (left right : Tree)
  | call (function : String) (argument : Tree)
  deriving DecidableEq

namespace Tree

/-- The names of the variables in a tree, from left to right. -/
def leafNames : Tree → List String
  | number _ => []
  | .variable name => [name]
  | negate t => t.leafNames
  | binary _ l r => l.leafNames ++ r.leafNames
  | call _ t => t.leafNames

/-- The variables of a tree in the order in which they first appear. -/
def variableNames (t : Tree) : List String := t.leafNames.eraseDups

/-- The description of a tree that messages and logs show. -/
def describe : Tree → String
  | number x => "Number(" ++ x.text ++ ")"
  | .variable name => "Variable('" ++ name ++ "')"
  | negate t => "Operator('u-', right=" ++ t.describe ++ ")"
  | binary op l r =>
    "Operator(" ++ quoted op.symbol ++ ", left=" ++ l.describe ++ ", right=" ++ r.describe ++ ")"
  | call f t => "Function(" ++ quoted f ++ ", arg=" ++ t.describe ++ ")"

end Tree

end Surd
