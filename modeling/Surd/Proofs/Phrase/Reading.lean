import Surd.Proofs.Phrase.Check
import Surd.Proofs.Phrase.Postfix
import Mathlib.Logic.Function.Iterate

/-!
# What the parser reads in a phrase

A negation takes the tree on top of the stack. One that leaves before its operand is read finds there whatever stands
to the left: the phrase has lost it. `strays` counts the negations that a phrase loses to its left, and `reading` is
the tree of what it keeps, those that it catches from its own right operands included. The two say what the parser
makes of any phrase. Where no negation is followed by another, nothing strays and the reading is the tree of the
derivation.
-/

namespace Surd

namespace Tree

/-- The stack of trees after `n` negations. -/
def attach : Nat → List Tree → Except Stop (List Tree)
  | 0, trees => .ok trees
  | n + 1, trees => do attach n (← push trees .negation)

theorem attach_cons (n : Nat) (t : Tree) (trees : List Tree) :
    attach n (t :: trees) = .ok (negate^[n] t :: trees) := by
  induction n generalizing t with
  | zero => rfl
  | succ n ih => exact ih t.negate

/-- A negation without a tree to its left is refused. -/
theorem attach_nil {n : Nat} (h : n ≠ 0) : attach n [] = refuse .missingNegand := by
  cases n with
  | zero => exact absurd rfl h
  | succ n => rfl

end Tree

namespace Phrase

open Surd.Token Surd.Tree

variable {l : Level}

/-- How many negations a phrase loses to its left: of a run in front of it, all but the last. -/
def strays : {l : Level} → Phrase .signed l → Nat
  | _, number _ _ _ _ => 0
  | _, name _ _ => 0
  | _, group _ _ inner _ _ => inner.strays
  | _, call _ _ _ _ argument _ _ => argument.strays
  | _, negation _ operand => if operand.isNegated then operand.strays + 1 else operand.strays
  | _, plain _ inner => inner.strays
  | _, binary left _ _ _ _ => left.strays

/-- The tree that the parser makes of what a phrase does not lose: the negations that the right operand of an
operation loses go to its left operand. -/
def reading : {l : Level} → Phrase .signed l → Tree
  | _, number _ value _ _ => .number value
  | _, name text _ => .variable text
  | _, group _ _ inner _ _ => inner.reading
  | _, call function _ _ _ argument _ _ => .call function argument.reading
  | _, negation _ operand => if operand.isNegated then operand.reading else .negate operand.reading
  | _, plain _ inner => inner.reading
  | _, binary left op _ _ right => .binary op (Tree.negate^[right.strays] left.reading) right.reading

/-- The postfix order of a phrase puts its reading on the stack of trees, after its stray negations have gone to the
tree that was on top. -/
theorem assemble_postfix (p : Phrase .signed l) (trees : List Tree) (rest : List Token) :
    assemble trees (p.emitted ++ p.pending ++ rest) = (do
      let trees ← attach p.strays trees
      assemble (p.reading :: trees) rest) := by
  induction p generalizing trees rest with
  | number text value position reads =>
      simp only [emitted, pending, List.append_nil, List.singleton_append, assemble, push, reads]
      rfl
  | name => rfl
  | group _ _ inner _ _ ih =>
      rw [emitted, pending, List.append_nil]
      exact ih trees rest
  | call function position _ _ argument _ _ ih =>
      rw [emitted, pending, List.append_nil, List.append_assoc, ih]
      rfl
  | negation position operand ih =>
      cases h : operand.isNegated with
      | true =>
          simp only [emitted, pending, strays, reading, h, if_true, List.cons_append, assemble]
          simp only [ih, attach, bind_assoc]
      | false =>
          simp only [emitted, pending, strays, reading, h, Bool.false_eq_true, if_false]
          rw [← List.append_assoc, List.append_assoc, ih]
          rfl
  | plain _ inner ih => exact ih trees rest
  | binary left op mem position right ihl ihr =>
      have order : (binary left op mem position right).emitted ++
          (binary left op mem position right).pending ++ rest =
          left.emitted ++ left.pending ++
            (right.emitted ++ right.pending ++ ⟨.binary op, position⟩ :: rest) := by
        simp only [emitted, pending, List.append_assoc, List.singleton_append]
      rw [order, ihl]
      simp only [ihr, attach_cons]
      rfl

/-- The parser returns the reading of a whole expression that loses nothing, and refuses one that loses a
negation. -/
theorem ofTokens_tokens (p : Phrase .signed l) :
    Tree.ofTokens p.tokens =
      if p.strays = 0 then .ok p.reading else refuse .missingNegand := by
  have h := p.assemble_postfix [] []
  rw [List.append_nil] at h
  have run : Tree.ofTokens p.tokens = assemble [] (p.emitted ++ p.pending) := by
    simp only [Tree.ofTokens, toPostfix_tokens]
    rfl
  rw [run, h]
  split
  · rename_i none_lost
    rw [none_lost]
    rfl
  · rename_i lost
    rw [attach_nil lost]
    rfl

/-! ## Phrases without runs -/

/-- A phrase of the grammar without runs as a phrase of the grammar with runs. -/
def widen : {l : Level} → Phrase .atom l → Phrase .signed l
  | _, number text value position reads => number text value position reads
  | _, name text position => name text position
  | _, group opening start inner closing stop => group opening start inner.widen closing stop
  | _, call function position opening start argument closing stop =>
    call function position opening start argument.widen closing stop
  | _, negation position operand => negation position (plain (by decide) operand.widen)
  | _, plain loose inner => plain loose inner.widen
  | _, binary left op mem position right => binary left.widen op mem position right.widen

theorem tokens_widen (p : Phrase .atom l) : p.widen.tokens = p.tokens := by
  induction p with
  | negation position _ ih => exact congrArg (⟨.negation, position⟩ :: ·) ih
  | _ => simp only [widen, tokens, *]

/-- Nothing strays where no negation follows another. -/
theorem strays_widen (p : Phrase .atom l) : p.widen.strays = 0 := by
  induction p with
  | number | name => rfl
  | group _ _ _ _ _ ih => exact ih
  | call _ _ _ _ _ _ _ ih => exact ih
  | negation _ _ ih => exact ih
  | plain _ _ ih => exact ih
  | binary _ _ _ _ _ ih _ => exact ih

theorem reading_widen (p : Phrase .atom l) : p.widen.reading = p.tree := by
  induction p with
  | number | name => rfl
  | group _ _ _ _ _ ih => exact ih
  | call _ _ _ _ _ _ _ ih => exact congrArg _ ih
  | negation _ _ ih => exact congrArg _ ih
  | plain _ _ ih => exact ih
  | binary left op mem position right ihl ihr =>
      rw [widen, reading, strays_widen, ihl, ihr]
      rfl

/-- **Completeness of the parser.** The tokens of every derivation in which no negation follows another pass the
check, and the parser returns the tree of the derivation. -/
theorem parse_tokens (p : Phrase .atom .sum) :
    check p.tokens = [] ∧ Tree.ofTokens p.tokens = .ok p.tree := by
  refine ⟨p.check_tokens, ?_⟩
  rw [← p.tokens_widen, ofTokens_tokens, if_pos p.strays_widen, p.reading_widen]

end Phrase

end Surd
