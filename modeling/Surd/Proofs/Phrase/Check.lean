import Surd.Proofs.Phrase.Basic

/-!
# Derived tokens pass the check

The check looks at neighbours and counts parentheses. In a derived token list every operation stands after the last
token of an operand and before the first token of one, and every phrase closes what it opens, so the depth after it
is the depth before it. Both facts hold inside any context and are carried through the derivation together.
-/

namespace Surd

namespace Lexeme

@[simp] theorem nesting_opening (text : String) : (opening text).nesting = 1 := rfl

@[simp] theorem nesting_closing (text : String) : (closing text).nesting = -1 := rfl

@[simp] theorem nesting_function (name : String) : (function name).nesting = 0 := rfl

@[simp] theorem nesting_negation : negation.nesting = 0 := rfl

@[simp] theorem nesting_binary (op : BinaryOp) : (binary op).nesting = 0 := rfl

theorem flaws_closing (text : String) (last next : Option Lexeme) {depth : Int} (h : 0 ≤ depth) :
    (closing text).flaws last next depth = [] :=
  if_neg (Int.not_lt.mpr h)

end Lexeme

namespace Phrase

open Token

variable {negand l : Level}

/-- One step of the check at a token without a flaw. -/
private theorem complaints_cons (last : Option Lexeme) (depth : Int) (t : Token) (rest : List Token)
    (h : t.lexeme.flaws last (rest.head?.map Token.lexeme) (depth + t.lexeme.nesting) = []) :
    complaints last depth (t :: rest) =
      complaints (some t.lexeme) (depth + t.lexeme.nesting) rest := by
  simp only [complaints, h, List.map_nil, List.nil_append]

/-- A closing parenthesis at a positive depth has no flaw and goes one down. -/
private theorem complaints_closing (last : Option Lexeme) {depth : Int} (hd : 0 ≤ depth)
    (text : String) (position : Nat) (rest : List Token) :
    complaints last (depth + 1) (⟨.closing text, position⟩ :: rest) =
      complaints (some (.closing text)) depth rest := by
  have h : depth + 1 + (Lexeme.closing text).nesting = depth := by
    rw [Lexeme.nesting_closing]
    omega
  rw [complaints_cons, h]
  rw [h]
  exact Lexeme.flaws_closing text _ _ hd

private theorem next_isBinary (p : Phrase negand l) (rest : List Token) :
    (((p.tokens ++ rest).head?.map Token.lexeme).map Lexeme.isBinary).getD true = false := by
  obtain ⟨t, others, h, hb⟩ := p.tokens_eq_cons
  rw [h]
  exact hb

/-- Whatever stands before a phrase, the check finds nothing in it and goes on behind an operand at the depth at
which it came. -/
theorem complaints_tokens (p : Phrase negand l) (last : Option Lexeme) {depth : Int}
    (rest : List Token) (hd : 0 ≤ depth) :
    ∃ x : Lexeme, x.isOperator = false ∧
      complaints last depth (p.tokens ++ rest) = complaints (some x) depth rest := by
  induction p generalizing last depth rest with
  | number text _ position _ =>
      refine ⟨.number text, rfl, ?_⟩
      rw [tokens, List.singleton_append, complaints_cons _ _ _ _ rfl]
      exact congrArg (complaints _ · rest) (Int.add_zero depth)
  | name text position =>
      refine ⟨.variable text, rfl, ?_⟩
      rw [tokens, List.singleton_append, complaints_cons _ _ _ _ rfl]
      exact congrArg (complaints _ · rest) (Int.add_zero depth)
  | group opening start inner closing stop ih =>
      refine ⟨.closing closing, rfl, ?_⟩
      obtain ⟨x, _, hi⟩ := ih (some (.opening opening)) (⟨.closing closing, stop⟩ :: rest)
        (Int.le_add_one hd)
      rw [tokens, List.cons_append, List.append_assoc, List.singleton_append,
        complaints_cons _ _ _ _ rfl, Lexeme.nesting_opening, hi]
      exact complaints_closing _ hd closing stop rest
  | call function position opening start argument closing stop ih =>
      refine ⟨.closing closing, rfl, ?_⟩
      obtain ⟨x, _, hi⟩ := ih (some (.opening opening)) (⟨.closing closing, stop⟩ :: rest)
        (Int.le_add_one hd)
      rw [tokens, List.cons_append, List.cons_append, List.append_assoc, List.singleton_append,
        complaints_cons _ _ _ _ rfl, complaints_cons _ _ _ _ rfl, Lexeme.nesting_function,
        Lexeme.nesting_opening, Int.add_zero, hi]
      exact complaints_closing _ hd closing stop rest
  | negation position operand ih =>
      have hn : Lexeme.negation.flaws last ((operand.tokens ++ rest).head?.map Token.lexeme)
          (depth + Lexeme.negation.nesting) = [] := by
        simp only [Lexeme.flaws, next_isBinary operand rest, Bool.false_eq_true, if_false]
      rw [tokens, List.cons_append, complaints_cons _ _ _ _ hn, Lexeme.nesting_negation,
        Int.add_zero]
      exact ih (some .negation) rest hd
  | plain _ inner ih => exact ih last rest hd
  | binary left op _ position right ihl ihr =>
      obtain ⟨x, hx, hl⟩ := ihl last (⟨.binary op, position⟩ :: (right.tokens ++ rest)) hd
      have hb : (Lexeme.binary op).flaws (some x) ((right.tokens ++ rest).head?.map Token.lexeme)
          (depth + (Lexeme.binary op).nesting) = [] := by
        simp only [Lexeme.flaws, Option.map_some, Option.getD_some, hx,
          next_isBinary right rest, Bool.false_eq_true, if_false, List.append_nil]
      rw [tokens, List.append_assoc, List.cons_append, hl, complaints_cons _ _ _ _ hb,
        Lexeme.nesting_binary, Int.add_zero]
      exact ihr (some (.binary op)) rest hd

/-- A phrase closes every parenthesis that it opens. -/
theorem balance_tokens (p : Phrase negand l) : balance p.tokens = 0 := by
  suffices h : ∀ depth : Int,
      p.tokens.foldl (fun depth t => depth + t.lexeme.nesting) depth = depth from h 0
  induction p with
  | number | name => exact fun depth => Int.add_zero depth
  | group _ _ inner _ _ ih =>
      intro depth
      simp only [tokens, List.foldl_cons, List.foldl_append, List.foldl_nil, ih,
        Lexeme.nesting_opening, Lexeme.nesting_closing]
      omega
  | call _ _ _ _ argument _ _ ih =>
      intro depth
      simp only [tokens, List.foldl_cons, List.foldl_append, List.foldl_nil, ih,
        Lexeme.nesting_function, Lexeme.nesting_opening, Lexeme.nesting_closing]
      omega
  | negation _ operand ih =>
      intro depth
      simp only [tokens, List.foldl_cons, ih, Lexeme.nesting_negation, Int.add_zero]
  | plain _ inner ih => exact ih
  | binary left op _ _ right ihl ihr =>
      intro depth
      simp only [tokens, List.foldl_append, List.foldl_cons, ihl, ihr, Lexeme.nesting_binary,
        Int.add_zero]

/-- The check has no complaint about derived tokens, runs of negations included. -/
theorem check_tokens (p : Phrase negand l) : check p.tokens = [] := by
  obtain ⟨x, _, h⟩ := p.complaints_tokens none [] (Int.le_refl 0)
  rw [List.append_nil] at h
  simp only [check, h, complaints, balance_tokens, Int.lt_irrefl, if_false, List.append_nil]

end Phrase

end Surd
