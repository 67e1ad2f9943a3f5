import Surd.Token.Basic
import Surd.Fault
import Surd.Text.Quoted

/-!
# Postfix order

Operators wait on a stack until their right operand is complete. An operator makes those on top of the stack that
bind at least as strongly leave first, so operators of equal rank are taken from the left; a function leaves at the
parenthesis that closes its argument. Every token list has a postfix order, whether it is well formed or not: what
is still on the stack at the end leaves from the top.
-/

namespace Surd.Token

/-- The rank of an operator on the stack or in the input. -/
def rank (l : Lexeme) : Except Fault Nat :=
  match l.rank? with
  | some n => .ok n
  | none => .error (.missingKey (quoted l.label))

/-- Whether the token on top of the stack leaves before the operator `incoming` enters. -/
def leavesBefore (incoming top : Lexeme) : Except Fault Bool :=
  match top with
  | .opening _ => .ok false
  | .function _ => .ok true
  | _ => do
    let above ← rank top
    let below ← rank incoming
    return below ≤ above

/-- The part of the stack that leaves before an operator enters, and the part that stays. -/
def unstack (incoming : Lexeme) : List Token → Except Fault (List Token × List Token)
  | [] => .ok ([], [])
  | top :: rest => do
    if ← leavesBefore incoming top.lexeme then
      let (out, stays) ← unstack incoming rest
      return (top :: out, stays)
    else return ([], top :: rest)

/-- The part of the stack above the nearest opening parenthesis, and the part from it on. -/
def group (stack : List Token) : List Token × List Token :=
  (stack.takeWhile (!·.lexeme.isOpening), stack.dropWhile (!·.lexeme.isOpening))

/-- The function on top of the stack, if there is one, and the stack below it. -/
def owner : List Token → List Token × List Token
  | [] => ([], [])
  | top :: rest =>
    match top.lexeme with
    | .function _ => ([top], rest)
    | _ => ([], top :: rest)

/-- The postfix order of tokens that find a stack. -/
def arrange (stack : List Token) : List Token → Except Fault (List Token)
  | [] => .ok stack
  | t :: rest =>
    match t.lexeme with
    | .number _ => (t :: ·) <$> arrange stack rest
    | .variable _ => (t :: ·) <$> arrange stack rest
    | .function _ => arrange (t :: stack) rest
    | .opening _ => arrange (t :: stack) rest
    | .comma _ => ((group stack).1 ++ ·) <$> arrange (group stack).2 rest
    | .closing _ =>
      let (out, below) := group stack
      let (function, below) := owner below.tail
      (out ++ function ++ ·) <$> arrange below rest
    | l => do
      let (out, stays) ← unstack l stack
      (out ++ ·) <$> arrange (t :: stays) rest

/-- The postfix order of a token list. -/
def toPostfix (tokens : List Token) : Except Fault (List Token) := arrange [] tokens

end Surd.Token
