import Surd.Token.Check
import Surd.Tree.OfPostfix

/-!
# Derivations of expressions

The grammar of expressions has five levels. A binary operation of a level takes a phrase of its own level on the
left and one of the next tighter level on the right, so all of them, the power included, group from the left:

    sum     ::=  product | sum (+|-) product
    product ::=  power | product (*|/) power
    power   ::=  signed | power ^ signed
    signed  ::=  atom | u- negand
    atom    ::=  numeral | variable | ( sum ) | function ( sum )

The level of the negand is a parameter. With `Level.atom` two negations never stand side by side, with
`Level.signed` any number of them may.

A `Phrase` is a derivation. It has the tokens that it derives and the tree that it stands for; neither mentions the
ranks of operators or the stacks of the parser.
-/

namespace Surd

/-- The levels of the grammar, from the loosest to the tightest. -/
inductive Level where
  | sum
  | product
  | power
  | signed
  | atom
  deriving DecidableEq

namespace Level

/-- The level of a right operand. -/
def tighter : Level → Level
  | sum => product
  | product => power
  | power => signed
  | signed => atom
  | atom => atom

/-- The binary operations of a level. -/
def operations : Level → List BinaryOp
  | sum => [.add, .sub]
  | product => [.mul, .div]
  | power => [.pow]
  | signed => []
  | atom => []

end Level

/-- A derivation of the grammar in which a negation stands before a phrase of level `negand`. The text of a numeral
denotes a number; every other text is arbitrary, and so are all positions. -/
inductive Phrase (negand : Level) : Level → Type where
  | number (text : String) (value : Double) (position : Nat)
      (reads : Double.ofText? text.toList = some value) : Phrase negand .atom
  | name (text : String) (position : Nat) : Phrase negand .atom
  | group (opening : String) (start : Nat) (inner : Phrase negand .sum) (closing : String)
      (stop : Nat) : Phrase negand .atom
  | call (function : String) (position : Nat) (opening : String) (start : Nat)
      (argument : Phrase negand .sum) (closing : String) (stop : Nat) : Phrase negand .atom
  | negation (position : Nat) (operand : Phrase negand negand) : Phrase negand .signed
  | plain {l : Level} (loose : l ≠ .atom) (inner : Phrase negand l.tighter) : Phrase negand l
  | binary {l : Level} (left : Phrase negand l) (op : BinaryOp) (mem : op ∈ l.operations)
      (position : Nat) (right : Phrase negand l.tighter) : Phrase negand l

namespace Phrase

variable {negand l : Level}

/-- The tokens that a phrase derives. -/
def tokens {negand : Level} : {l : Level} → Phrase negand l → List Token
  | _, number text _ position _ => [⟨.number text, position⟩]
  | _, name text position => [⟨.variable text, position⟩]
  | _, group opening start inner closing stop =>
    ⟨.opening opening, start⟩ :: (inner.tokens ++ [⟨.closing closing, stop⟩])
  | _, call function position opening start argument closing stop =>
    ⟨.function function, position⟩ :: ⟨.opening opening, start⟩ ::
      (argument.tokens ++ [⟨.closing closing, stop⟩])
  | _, negation position operand => ⟨.negation, position⟩ :: operand.tokens
  | _, plain _ inner => inner.tokens
  | _, binary left op _ position right => left.tokens ++ ⟨.binary op, position⟩ :: right.tokens

/-- The tree that a phrase stands for: parentheses leave no trace in it. -/
def tree {negand : Level} : {l : Level} → Phrase negand l → Tree
  | _, number _ value _ _ => .number value
  | _, name text _ => .variable text
  | _, group _ _ inner _ _ => inner.tree
  | _, call function _ _ _ argument _ _ => .call function argument.tree
  | _, negation _ operand => .negate operand.tree
  | _, plain _ inner => inner.tree
  | _, binary left op _ _ right => .binary op left.tree right.tree

/-- A phrase starts with a token that is no binary operation. -/
theorem tokens_eq_cons (p : Phrase negand l) :
    ∃ t rest, p.tokens = t :: rest ∧ t.lexeme.isBinary = false := by
  induction p with
  | number | name | group | call | negation => exact ⟨_, _, rfl, rfl⟩
  | plain _ _ ih => exact ih
  | binary left op _ position right ih _ =>
      obtain ⟨t, rest, h, hb⟩ := ih
      exact ⟨t, _, by rw [tokens, h, List.cons_append], hb⟩

end Phrase

end Surd
