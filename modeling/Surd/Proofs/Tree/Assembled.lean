import Surd.Tree.OfPostfix
import Surd.Proofs.Returns

/-!
# Trees put together

`Pushed` is what a token does to the stack of trees where it succeeds, one case for each kind of token that stands in
postfix order, and `Assembled` is a whole list that makes a tree. What is known of all trees that are put together is an
induction on `Assembled`. A list whose numerals denote numbers makes a tree, or the problem is that it makes none
(`assemble_answers`).
-/

namespace Surd

/-- The token is no numeral, or one that denotes a number. -/
def Lexeme.Denotes : Lexeme → Prop
  | number text => ∃ x, Double.ofText? text.toList = some x
  | _ => True

namespace Tree

/-- The token makes the second stack of the first. -/
inductive Pushed : Lexeme → List Tree → List Tree → Prop
  | number {text x} (stack) (read : Double.ofText? text.toList = some x) :
      Pushed (.number text) stack (number x :: stack)
  | «variable» (name stack) : Pushed (.variable name) stack (.variable name :: stack)
  | negation (t rest) : Pushed .negation (t :: rest) (negate t :: rest)
  | binary (op right left rest) : Pushed (.binary op) (right :: left :: rest) (binary op left right :: rest)
  | function (f t rest) : Pushed (.function f) (t :: rest) (call f t :: rest)

/-- The stack and the tokens after it make the tree. -/
inductive Assembled : List Tree → List Token → Tree → Prop
  | nil (t) : Assembled [t] [] t
  | cons {u stack stack' ts t} (pushed : Pushed u.lexeme stack stack') (rest : Assembled stack' ts t) :
      Assembled stack (u :: ts) t

variable {stack stack' below : List Tree} {l : Lexeme} {ts us : List Token} {t t' : Tree}

theorem push_eq_ok_iff : push stack l = .ok stack' ↔ Pushed l stack stack' := by
  constructor
  · intro h
    unfold push at h
    split at h
    case h_1 =>
      split at h
      · rename_i read
        obtain rfl := Except.ok.inj h
        exact .number _ read
      · cases h
    all_goals cases h
    all_goals constructor
  · rintro (⟨_, read⟩ | _ | _ | _ | _)
    · rw [push, read]
    all_goals rfl

theorem assemble_eq_ok_iff : assemble stack ts = .ok t ↔ Assembled stack ts t := by
  constructor
  · intro h
    induction ts generalizing stack with
    | nil =>
        unfold assemble at h
        split at h
        · obtain rfl := Except.ok.inj h
          exact .nil _
        · cases h
    | cons u ts ih =>
        obtain ⟨stack', pushed, h⟩ := exists_of_bind_eq_ok h
        exact .cons (push_eq_ok_iff.mp pushed) (ih h)
  · intro h
    induction h with
    | nil => rfl
    | cons pushed _ ih => rw [assemble, push_eq_ok_iff.mpr pushed, ok_bind, ih]

/-- Tokens make a tree when their postfix order does. -/
theorem ofTokens_eq_ok_iff : ofTokens ts = .ok t ↔ ∃ out, Token.arrange [] ts = .ok out ∧ Assembled [] out t := by
  constructor
  · intro h
    obtain ⟨out, lifted, assembled⟩ := exists_of_bind_eq_ok h
    exact ⟨out, lift_eq_ok lifted, assemble_eq_ok_iff.mp assembled⟩
  · rintro ⟨out, arranged, assembled⟩
    rw [ofTokens, Token.toPostfix, arranged]
    exact assemble_eq_ok_iff.mpr assembled

/-! ## Tokens that make no tree -/

/-- The problem is that tokens make no tree: an operand is missing, or there is no way to use all of them. -/
def Unshaped (p : Problem) : Prop := p.code = "3032" ∨ p.code = "3033"

/-- It is not reported under the code of another stage. -/
theorem Unshaped.code_ne {p : Problem} (h : Unshaped p) : p.code ≠ "3030" ∧ p.code ≠ "3027" ∧ p.code ≠ "3031" := by
  obtain code | code := h <;> simp [code]

theorem push_answers (denotes : l.Denotes) (stack : List Tree) :
    (∃ stack', push stack l = .ok stack') ∨ ∃ p, push stack l = .error (.problem p) ∧ Unshaped p := by
  cases l with
  | number text =>
      obtain ⟨x, read⟩ := denotes
      exact .inl ⟨number x :: stack, by rw [push, read]⟩
  | «variable» name => exact .inl ⟨_, rfl⟩
  | negation =>
      cases stack with
      | nil => exact .inr ⟨_, rfl, .inl rfl⟩
      | cons => exact .inl ⟨_, rfl⟩
  | function f =>
      cases stack with
      | nil => exact .inr ⟨_, rfl, .inl rfl⟩
      | cons => exact .inl ⟨_, rfl⟩
  | binary op =>
      cases stack with
      | nil => exact .inr ⟨_, rfl, .inl rfl⟩
      | cons t stack =>
          cases stack with
          | nil => exact .inr ⟨_, rfl, .inl rfl⟩
          | cons => exact .inl ⟨_, rfl⟩
  | opening | closing | comma => exact .inr ⟨_, rfl, .inr rfl⟩

theorem assemble_answers (denote : ∀ u ∈ ts, u.lexeme.Denotes) (stack : List Tree) :
    (∃ t, assemble stack ts = .ok t) ∨ ∃ p, assemble stack ts = .error (.problem p) ∧ Unshaped p := by
  induction ts generalizing stack with
  | nil =>
      cases stack with
      | nil => exact .inr ⟨_, rfl, .inr rfl⟩
      | cons t stack =>
          cases stack with
          | nil => exact .inl ⟨t, rfl⟩
          | cons => exact .inr ⟨_, rfl, .inr rfl⟩
  | cons u ts ih =>
      obtain ⟨first, others⟩ := List.forall_mem_cons.mp denote
      rw [assemble]
      obtain ⟨stack', pushed⟩ | ⟨p, refused, unshaped⟩ := push_answers first stack
      · rw [pushed]
        exact ih others stack'
      · exact .inr ⟨p, by rw [refused]; rfl, unshaped⟩

/-! ## Trees below -/

/-- A token takes its operands off the top, whatever lies below them. -/
theorem Pushed.append (h : Pushed l stack stack') (below : List Tree) : Pushed l (stack ++ below) (stack' ++ below) := by
  cases h with
  | number _ read => exact .number _ read
  | «variable» => exact .variable _ _
  | negation => exact .negation _ _
  | binary => exact .binary _ _ _ _
  | function => exact .function _ _ _

/-- Tokens that make a tree make it on top of other trees, and the tokens that follow find it there. -/
theorem Assembled.append (h : Assembled stack ts t) (more : Assembled (t :: below) us t') :
    Assembled (stack ++ below) (ts ++ us) t' := by
  induction h with
  | nil => exact more
  | cons pushed _ ih => exact .cons (pushed.append below) (ih more)

end Tree

end Surd
