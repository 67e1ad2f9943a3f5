import Surd.Proofs.Token.Move
import Surd.Proofs.Tree.Assembled
import Mathlib

/-!
# Counting operands

An operand puts a tree on the stack and an operation on two operands takes one off, whatever the order is. So tokens
that make a tree have one operand more than operations (`total_of_ofTokens`), also where they derive from no grammar.
-/

namespace Surd

namespace Lexeme

/-- By how many trees a token makes the stack grow. -/
def surplus : Lexeme → Int
  | number _ => 1
  | .variable _ => 1
  | binary _ => -1
  | _ => 0

/-- The surplus of a list. -/
def total (ls : List Lexeme) : Int := (ls.map surplus).sum

@[simp] theorem total_nil : total [] = 0 := rfl

@[simp] theorem total_cons (l : Lexeme) (ls : List Lexeme) : total (l :: ls) = l.surplus + total ls := by
  simp [total]

@[simp] theorem total_append (ls ls' : List Lexeme) : total (ls ++ ls') = total ls + total ls' := by
  simp [total]

theorem total_flatMap (f : Lexeme → List Lexeme) (ls : List Lexeme) :
    total (ls.flatMap f) = (ls.map fun l => total (f l)).sum := by
  induction ls with
  | nil => rfl
  | cons l ls ih => simp [ih]

theorem surplus_of_isDelimiter {l : Lexeme} (h : l.isDelimiter = true) : l.surplus = 0 := by
  cases l with
  | opening | closing | comma => rfl
  | _ => cases h

end Lexeme

open Lexeme (total)

variable {ts out : List Token} {stack stack' : List Tree} {tree : Tree} {l : Lexeme}

theorem Token.total_of_arrange (h : arrange [] ts = .ok out) : total (out.map lexeme) = total (ts.map lexeme) := by
  obtain ⟨lost, perm, delimiters⟩ := exists_perm_of_arrange h
  have none : total (lost.map lexeme) = 0 := by
    refine List.sum_eq_zero ?_
    simpa using fun u hu => Lexeme.surplus_of_isDelimiter (delimiters u hu)
  have same : total ((lost ++ out).map lexeme) = total ((ts ++ []).map lexeme) :=
    ((perm.map lexeme).map Lexeme.surplus).sum_eq
  simpa [none] using same

namespace Tree

theorem Pushed.length_eq (h : Pushed l stack stack') : (stack'.length : Int) = stack.length + l.surplus := by
  cases h <;> simp [Lexeme.surplus]

theorem Assembled.total_eq (h : Assembled stack ts tree) : stack.length + total (ts.map Token.lexeme) = 1 := by
  induction h with
  | nil => rfl
  | cons pushed _ ih => rwa [List.map_cons, Lexeme.total_cons, ← add_assoc, ← pushed.length_eq]

/-- Tokens that make a tree have one operand more than operations. -/
theorem total_of_ofTokens (h : ofTokens ts = .ok tree) : total (ts.map Token.lexeme) = 1 := by
  obtain ⟨out, arranged, assembled⟩ := ofTokens_eq_ok_iff.mp h
  rw [← Token.total_of_arrange arranged]
  simpa using assembled.total_eq

end Tree

end Surd
