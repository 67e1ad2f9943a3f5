import Surd.Proofs.Token.Nesting
import Surd.Proofs.Token.Ranked

/-!
# What postfix order keeps

Well formed or not, a list of tokens whose operations have ranks has a postfix order, with the tokens of the list but for
the delimiters that do their work: closing parentheses, commas and the opening parentheses that are closed
(`Token.lasting`). An opening parenthesis that is closed leaves the stack with its group, and a closing one that closes
nothing in its list takes the nearest opening one of the stack away. So what a list leaves of the stack that it finds
depends on the number of these only (`relieve`), and one token is accounted for at a time (`perm_move`).
-/

namespace Surd.Token

open Lexeme (Balanced parentheses unopened)

variable {stack stack' left ts rest out : List Token} {t : Token} {n : Nat}

/-! ## Tokens that last -/

/-- The tokens start with balanced parentheses, whatever else stands between these, and a closing parenthesis. -/
def Closes (ts : List Token) : Prop :=
  ∃ inner closing after, ts.map lexeme = inner ++ .closing closing :: after ∧ Balanced (parentheses inner)

instance : DecidablePred Closes := fun ts => decidable_of_iff (0 < unopened (ts.map lexeme)) Lexeme.unopened_pos_iff

/-- The tokens that have a place in postfix order: no closing parentheses, no commas, and of the opening parentheses those
that are not closed by what comes behind them. -/
def lasting : List Token → List Token
  | [] => []
  | t :: rest =>
    if t.lexeme.isClosing ∨ t.lexeme.isComma ∨ t.lexeme.isOpening ∧ Closes rest then lasting rest
    else t :: lasting rest

/-- What is left of a stack when `n` opening parentheses are taken away, the nearest first. -/
def relieve : Nat → List Token → List Token
  | 0, stack => stack
  | _ + 1, [] => []
  | n + 1, top :: rest => if top.lexeme.isOpening then relieve n rest else top :: relieve (n + 1) rest

theorem relieve_zero (stack : List Token) : relieve 0 stack = stack := by cases stack <;> rfl

theorem relieve_nil (n : Nat) : relieve n [] = [] := by cases n <;> rfl

theorem relieve_cons_of_not (ht : t.lexeme.isOpening = false) (n : Nat) (stack : List Token) :
    relieve n (t :: stack) = t :: relieve n stack := by
  cases n with
  | zero => rw [relieve_zero, relieve_zero]
  | succ n => rw [relieve, if_neg (ne_true_of_eq_false ht)]

theorem relieve_append (none : ∀ t ∈ left, t.lexeme.isOpening = false) (n : Nat) (stack : List Token) :
    relieve n (left ++ stack) = left ++ relieve n stack := by
  induction left with
  | nil => rfl
  | cons t left ih =>
      obtain ⟨first, others⟩ := List.forall_mem_cons.mp none
      rw [List.cons_append, relieve_cons_of_not first, ih others, List.cons_append]

/-! ## One token -/

/-- A group leaves with the parenthesis that opened it. -/
theorem relieve_group (n : Nat) (stack : List Token) :
    relieve (n + 1) stack = (group stack).1 ++ relieve n (group stack).2.tail := by
  conv_lhs => rw [← group_parts stack, relieve_append not_opening_of_mem_group]
  cases below : (group stack).2 with
  | nil => rw [List.tail_nil, relieve_nil, relieve_nil]
  | cons top rest => rw [relieve, if_pos (isOpening_of_group_cons below), List.tail_cons]

/-- A token lasts in front of `n` closing parentheses that close nothing behind it. -/
def lastsBefore (n : Nat) : Lexeme → Bool
  | .opening _ => n = 0
  | .closing _ => false
  | .comma _ => false
  | _ => true

/-- What leaves and the new stack are the stack that a token finds and the token if it lasts, with `n` closing
parentheses that close nothing behind it. -/
theorem perm_move (h : move stack t = .ok (left, stack')) (n : Nat) :
    (left ++ relieve n stack').Perm
      (relieve (t.lexeme.unopenedWith n) stack ++ [t].filter fun t => lastsBefore n t.lexeme) := by
  cases moved_of_move h with
  | number | «variable» => exact List.perm_append_comm
  | function =>
      rw [relieve_cons_of_not rfl]
      exact (List.perm_append_singleton _ _).symm
  | opening =>
      cases n with
      | zero =>
          rw [relieve_zero]
          show List.Perm _ (relieve 0 stack ++ [_])
          rw [relieve_zero]
          exact (List.perm_append_singleton _ _).symm
      | succ n =>
          show List.Perm (relieve n stack) (relieve n stack ++ [])
          rw [List.append_nil]
  | comma =>
      rw [← relieve_append not_opening_of_mem_group, group_parts]
      exact .of_eq (List.append_nil _).symm
  | closing =>
      rw [List.append_assoc, ← relieve_append not_opening_of_mem_owner, owner_parts, ← relieve_group]
      exact .of_eq (List.append_nil _).symm
  | binary parts | negation parts =>
      conv_rhs => rw [← parts.parts]
      rw [relieve_cons_of_not rfl]
      show List.Perm _ (relieve n (left ++ _) ++ [_])
      rw [relieve_append parts.not_opening, List.append_assoc]
      exact ((List.perm_append_singleton _ _).symm).append_left left

/-! ## All tokens -/

theorem lasting_cons (t : Token) (ts : List Token) :
    lasting (t :: ts) = ([t].filter fun t => lastsBefore (unopened (ts.map lexeme)) t.lexeme) ++ lasting ts := by
  obtain ⟨l, p⟩ := t
  cases l with
  | opening text =>
      have closed : Closes ts ↔ unopened (ts.map lexeme) ≠ 0 := Lexeme.unopened_pos_iff.symm.trans Nat.pos_iff_ne_zero
      by_cases none : unopened (ts.map lexeme) = 0 <;>
        simp [lasting, lastsBefore, Lexeme.isClosing, Lexeme.isComma, Lexeme.isOpening, closed, none]
  | _ => simp [lasting, lastsBefore, Lexeme.isClosing, Lexeme.isComma, Lexeme.isOpening]

theorem perm_arrange (h : arrange stack ts = .ok out) :
    out.Perm (relieve (unopened (ts.map lexeme)) stack ++ lasting ts) := by
  induction ts generalizing stack out with
  | nil =>
      obtain rfl := Except.ok.inj h
      exact .of_eq (by rw [lasting, List.append_nil]; exact (relieve_zero _).symm)
  | cons t ts ih =>
      obtain ⟨left, stack', out', moved, later, rfl⟩ := exists_of_arrange_cons h
      have here := perm_move moved (unopened (ts.map lexeme))
      rw [lasting_cons, ← List.append_assoc]
      calc (left ++ out').Perm (left ++ (relieve (unopened (ts.map lexeme)) stack' ++ lasting ts)) :=
            (ih later).append_left left
        List.Perm _ (relieve (unopened ((t :: ts).map lexeme)) stack ++ _ ++ lasting ts) := by
            rw [← List.append_assoc]
            exact here.append_right _

/-- **What postfix order keeps.** Tokens whose operations have ranks, well formed or not, have a postfix order. It is a
permutation of them without the closing parentheses, the commas and the opening parentheses that are closed, and the
operands stand in it as they stood before. -/
theorem toPostfix_conserves (ranked : Ranked ts) :
    ∃ out, toPostfix ts = .ok out ∧ out.Perm (lasting ts) ∧ operands out = operands ts := by
  obtain ⟨out, arranged, -⟩ := arrange_returns ranked (List.forall_mem_nil _)
  have perm := perm_arrange arranged
  rw [relieve_nil, List.nil_append] at perm
  exact ⟨out, arranged, perm, operands_arrange arranged rfl⟩

/-- Of `)(x+(3,)sqrt` neither the first parenthesis nor the one that the second opens is matched. -/
theorem toPostfix_conserves_unmatched :
    ∃ out, toPostfix [⟨.closing ")", 0⟩, ⟨.opening "(", 1⟩, ⟨.variable "x", 2⟩, ⟨.binary .add, 3⟩, ⟨.opening "(", 4⟩,
        ⟨.number "3", 5⟩, ⟨.comma ",", 6⟩, ⟨.closing ")", 7⟩, ⟨.function "sqrt", 8⟩] = .ok out ∧
      out.Perm [⟨.opening "(", 1⟩, ⟨.variable "x", 2⟩, ⟨.binary .add, 3⟩, ⟨.number "3", 5⟩, ⟨.function "sqrt", 8⟩] ∧
      operands out = [⟨.variable "x", 2⟩, ⟨.number "3", 5⟩] := by
  refine toPostfix_conserves fun t ht op hop => ?_
  simp only [List.mem_cons, List.not_mem_nil, or_false] at ht
  obtain rfl | rfl | rfl | rfl | rfl | rfl | rfl | rfl | rfl := ht <;> cases hop
  exact ⟨1, rfl⟩

end Surd.Token
