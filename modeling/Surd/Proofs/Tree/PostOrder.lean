import Surd.Proofs.Tree.Assembled
import Surd.Proofs.Double.Text

/-!
# Trees in post-order

A tree in post-order is its leaves from left to right, with each operation and each function behind its operands
(`Tree.PostOrder`). The machine that puts a tree together takes such a list apart again: the tokens of a tree push that
tree and touch nothing below it (`PostOrder.assemble_append`). Conversely the stack always holds the trees of what was
read so far, in post-order from the bottom to the top (`Stacked`), so a list that makes a tree is the post-order of that
tree, and no tree has the post-order of another.
-/

namespace Surd.Tree

/-- The lexemes are the tree in post-order; a number may have any text that denotes it. -/
inductive PostOrder : Tree → List Lexeme → Prop
  | number {text x} (read : Double.ofText? text.toList = some x) : PostOrder (number x) [.number text]
  | «variable» (name) : PostOrder (.variable name) [.variable name]
  | negate {t ls} (operand : PostOrder t ls) : PostOrder (negate t) (ls ++ [.negation])
  | binary {l r ls rs} (op) (left : PostOrder l ls) (right : PostOrder r rs) :
      PostOrder (binary op l r) (ls ++ rs ++ [.binary op])
  | call {t ls} (f) (argument : PostOrder t ls) : PostOrder (call f t) (ls ++ [.function f])

/-- The lexemes of a tree in post-order, each number in the text that numbers are written in. -/
def postOrder : Tree → List Lexeme
  | number x => [.number x.text]
  | .variable name => [.variable name]
  | negate t => t.postOrder ++ [.negation]
  | binary op l r => l.postOrder ++ r.postOrder ++ [.binary op]
  | call f t => t.postOrder ++ [.function f]

variable {stack stack' : List Tree} {t t' : Tree} {l : Lexeme} {ls : List Lexeme} {ts us : List Token} {u : Token}

theorem postOrder_self (t : Tree) : PostOrder t t.postOrder := by
  induction t with
  | number x => exact .number x.ofText?_text
  | «variable» name => exact .variable name
  | negate _ ih => exact .negate ih
  | binary op _ _ left right => exact .binary op left right
  | call f _ ih => exact .call f ih

/-! ## From the post-order to the tree -/

theorem assemble_of_pushed (h : Pushed u.lexeme stack stack') (us : List Token) :
    assemble stack (u :: us) = assemble stack' us := by
  rw [assemble, push_eq_ok_iff.mpr h, ok_bind]

/-- The tokens of a tree push it, and leave what lies below and what follows to itself. -/
theorem PostOrder.assemble_append (h : PostOrder t ls) (tokens : ts.map Token.lexeme = ls) (stack : List Tree)
    (us : List Token) : assemble stack (ts ++ us) = assemble (t :: stack) us := by
  induction h generalizing ts stack us with
  | number read =>
      obtain ⟨u, rfl, leaf⟩ := List.map_eq_singleton_iff.mp tokens
      exact assemble_of_pushed (leaf ▸ .number stack read) us
  | «variable» name =>
      obtain ⟨u, rfl, leaf⟩ := List.map_eq_singleton_iff.mp tokens
      exact assemble_of_pushed (leaf ▸ .variable name stack) us
  | negate _ ih =>
      obtain ⟨operand, last, rfl, front, last_eq⟩ := List.map_eq_append_iff.mp tokens
      obtain ⟨u, rfl, node⟩ := List.map_eq_singleton_iff.mp last_eq
      rw [List.append_assoc, ih front]
      exact assemble_of_pushed (node ▸ .negation _ stack) us
  | binary op _ _ ihLeft ihRight =>
      obtain ⟨operands, last, rfl, front, last_eq⟩ := List.map_eq_append_iff.mp tokens
      obtain ⟨left, right, rfl, left_eq, right_eq⟩ := List.map_eq_append_iff.mp front
      obtain ⟨u, rfl, node⟩ := List.map_eq_singleton_iff.mp last_eq
      rw [List.append_assoc, List.append_assoc, ihLeft left_eq, ihRight right_eq]
      exact assemble_of_pushed (node ▸ .binary op _ _ stack) us
  | call f _ ih =>
      obtain ⟨argument, last, rfl, front, last_eq⟩ := List.map_eq_append_iff.mp tokens
      obtain ⟨u, rfl, node⟩ := List.map_eq_singleton_iff.mp last_eq
      rw [List.append_assoc, ih front]
      exact assemble_of_pushed (node ▸ .function f _ stack) us

theorem PostOrder.ofPostfix_eq (h : PostOrder t (ts.map Token.lexeme)) : ofPostfix ts = .ok t := by
  rw [ofPostfix, ← List.append_nil ts, h.assemble_append rfl]
  rfl

/-! ## From the tree to the post-order -/

/-- The lexemes are the trees of a stack in post-order, one after the other from the bottom to the top. -/
inductive Stacked : List Tree → List Lexeme → Prop
  | nil : Stacked [] []
  | cons {t stack ls ms} (top : PostOrder t ms) (below : Stacked stack ls) : Stacked (t :: stack) (ls ++ ms)

/-- What a token pushes ends with that token, and the operands come right before it. -/
theorem Pushed.stacked (h : Pushed l stack stack') (before : Stacked stack ls) : Stacked stack' (ls ++ [l]) := by
  cases h with
  | number _ read => exact .cons (.number read) before
  | «variable» name => exact .cons (.variable name) before
  | negation =>
      obtain _ | ⟨operand, below⟩ := before
      rw [List.append_assoc]
      exact .cons (.negate operand) below
  | binary op =>
      obtain _ | ⟨right, before⟩ := before
      obtain _ | ⟨left, below⟩ := before
      rw [List.append_assoc, List.append_assoc, ← List.append_assoc _ _ [_]]
      exact .cons (.binary op left right) below
  | function f =>
      obtain _ | ⟨argument, below⟩ := before
      rw [List.append_assoc]
      exact .cons (.call f argument) below

theorem Assembled.postOrder (h : Assembled stack ts t) (before : Stacked stack ls) :
    PostOrder t (ls ++ ts.map Token.lexeme) := by
  induction h generalizing ls with
  | nil =>
      obtain _ | ⟨top, below⟩ := before
      cases below
      rw [List.nil_append, List.map_nil, List.append_nil]
      exact top
  | cons pushed _ ih =>
      rw [List.map_cons, List.append_cons]
      exact ih (pushed.stacked before)

theorem ofPostfix_eq_ok_iff : ofPostfix ts = .ok t ↔ PostOrder t (ts.map Token.lexeme) :=
  ⟨fun made => (assemble_eq_ok_iff.mp made).postOrder .nil, PostOrder.ofPostfix_eq⟩

/-! ## Round trips -/

/-- **Trees are what their post-order makes.** Any post-order of a tree makes that tree again. Tokens whose numerals
denote numbers make a tree exactly if they are a post-order of it; if they are the post-order of none, the problem is
that an operand is missing or that tokens are left over. So no two trees have a post-order in common. -/
theorem ofPostfix_inverts_postOrder :
    (∀ t : Tree, PostOrder t t.postOrder) ∧
    (∀ (t : Tree) (ts : List Token), PostOrder t (ts.map Token.lexeme) → ofPostfix ts = .ok t) ∧
    (∀ ts : List Token, (∀ u ∈ ts, u.lexeme.Denotes) →
      (∀ t, ofPostfix ts = .ok t ↔ PostOrder t (ts.map Token.lexeme)) ∧
      ((¬ ∃ t, PostOrder t (ts.map Token.lexeme)) ↔ ∃ p, ofPostfix ts = .error (.problem p) ∧ Unshaped p)) ∧
    ∀ (t t' : Tree) (ls : List Lexeme), PostOrder t ls → PostOrder t' ls → t = t' := by
  refine ⟨postOrder_self, fun t ts => PostOrder.ofPostfix_eq, fun ts denote => ⟨fun t => ofPostfix_eq_ok_iff, ?_⟩, ?_⟩
  · constructor
    · intro none_made
      obtain ⟨t, made⟩ | refused := assemble_answers denote []
      · exact absurd ⟨t, ofPostfix_eq_ok_iff.mp made⟩ none_made
      · exact refused
    · rintro ⟨p, refused, -⟩ ⟨t, written⟩
      cases refused.symm.trans written.ofPostfix_eq
  · intro t t' ls written written'
    obtain ⟨ts, rfl⟩ : ∃ ts : List Token, ts.map Token.lexeme = ls :=
      ⟨ls.map (⟨·, 0⟩), List.map_map.trans (List.map_id ls)⟩
    exact Except.ok.inj (written.ofPostfix_eq.symm.trans written'.ofPostfix_eq)

/-- The tokens of `2 + x` make its tree, and without the operation they make none. -/
theorem ofPostfix_inverts_postOrder_sum :
    ofPostfix [⟨.number "2", 0⟩, ⟨.variable "x", 4⟩, ⟨.binary .add, 2⟩] =
      .ok (.binary .add (.number (.ofInt 2)) (.variable "x")) ∧
    ∃ p, ofPostfix [⟨.number "2", 0⟩, ⟨.variable "x", 4⟩] = .error (.problem p) ∧ Unshaped p := by
  obtain ⟨-, made, complete, -⟩ := ofPostfix_inverts_postOrder
  have two : Double.ofText? "2".toList = some (.ofInt 2) := by decide +kernel
  have written : PostOrder (.binary .add (.number (.ofInt 2)) (.variable "x")) _ :=
    .binary .add (.number two) (.variable "x")
  have denote : ∀ u ∈ [(⟨.number "2", 0⟩ : Token), ⟨.variable "x", 4⟩], u.lexeme.Denotes :=
    List.forall_mem_cons.mpr ⟨⟨_, two⟩, List.forall_mem_singleton.mpr trivial⟩
  refine ⟨made _ _ written, (complete _ denote).2.mp ?_⟩
  rintro ⟨t, written⟩
  have refused := made t [⟨.number "2", 0⟩, ⟨.variable "x", 4⟩] written
  rw [ofPostfix, assemble, push, two] at refused
  cases refused

end Surd.Tree
