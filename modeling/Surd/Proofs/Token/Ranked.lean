import Surd.Proofs.Token.Move
import Surd.Proofs.Token.Stack

/-!
# Where postfix order exists

Ranks are looked up for the operator that arrives and for the one on top of the stack. Only functions, opening
parentheses and operators wait on the stack, so the look-up finds a rank where every operation has one, and each list of
such tokens has a postfix order, well formed or not (`arrange_returns`).
-/

namespace Surd

/-- A token that can wait on the stack: a function, an opening parenthesis or an operator with a rank. -/
def Lexeme.Waits (l : Lexeme) : Prop := l.isFunction = true ∨ l.isOpening = true ∨ ∃ r, l.rank? = some r

namespace Token

variable {stack stack' left ts : List Token} {t : Token} {l top : Lexeme} {n : Nat}

/-- Every operation has a rank. -/
def Ranked (ts : List Token) : Prop := ∀ t ∈ ts, ∀ op, t.lexeme = .binary op → ∃ r, op.rank? = some r

theorem leavesBefore_returns (rank : l.rank? = some n) (waits : top.Waits) :
    Returns (leavesBefore l top) fun _ => True := by
  obtain function | opening | ⟨r, above⟩ := waits
  · cases top with
    | function => exact .ok trivial
    | _ => cases function
  · cases top with
    | opening => exact .ok trivial
    | _ => cases opening
  · rw [leavesBefore_of_rank rank above]
    exact .ok trivial

theorem unstack_returns (rank : l.rank? = some n) (waits : ∀ t ∈ stack, t.lexeme.Waits) :
    Returns (unstack l stack) fun _ => True := by
  induction stack with
  | nil => exact .ok trivial
  | cons top rest ih =>
      obtain ⟨first, others⟩ := List.forall_mem_cons.mp waits
      rw [unstack]
      refine (leavesBefore_returns rank first).bind fun leaves _ => ?_
      cases leaves with
      | true => exact (ih others).bind fun _ _ => .ok trivial
      | false => exact .ok trivial

/-- One token moves, and what it leaves on the stack can wait there. -/
theorem move_returns (ranked : ∀ op, t.lexeme = .binary op → ∃ r, op.rank? = some r)
    (waits : ∀ t ∈ stack, t.lexeme.Waits) :
    Returns (move stack t) fun r => ∀ t ∈ r.2, t.lexeme.Waits := by
  have grouped : ∀ t ∈ (group stack).2, t.lexeme.Waits := fun t ht => waits t ((List.dropWhile_suffix _).subset ht)
  have operator {n : Nat} (rank : t.lexeme.rank? = some n) :
      Returns (unstack t.lexeme stack) fun r => ∀ u ∈ t :: r.2, u.lexeme.Waits := by
    obtain ⟨r, parts, _⟩ := unstack_returns rank waits
    have stays : r.2 ⊆ stack := (unstacked_of_unstack parts).parts ▸ List.subset_append_right r.1 r.2
    exact ⟨r, parts, List.forall_mem_cons.mpr ⟨.inr (.inr ⟨n, rank⟩), fun u hu => waits u (stays hu)⟩⟩
  obtain ⟨l, p⟩ := t
  cases l with
  | number | «variable» => exact .ok waits
  | function => exact .ok (List.forall_mem_cons.mpr ⟨.inl rfl, waits⟩)
  | opening => exact .ok (List.forall_mem_cons.mpr ⟨.inr (.inl rfl), waits⟩)
  | comma => exact .ok grouped
  | closing =>
      have below : (owner (group stack).2.tail).2 ⊆ (group stack).2 := by
        refine fun u hu => List.mem_of_mem_tail ?_
        exact owner_parts (group stack).2.tail ▸ List.mem_append_right _ hu
      exact .ok fun u hu => grouped u (below hu)
  | binary op =>
      obtain ⟨r, rank⟩ := ranked op rfl
      exact (operator rank).bind fun _ waits => .ok waits
  | negation => exact (operator rfl).bind fun _ waits => .ok waits

/-- Tokens whose operations have ranks have a postfix order. -/
theorem arrange_returns (ranked : Ranked ts) (waits : ∀ t ∈ stack, t.lexeme.Waits) :
    Returns (arrange stack ts) fun _ => True := by
  induction ts generalizing stack with
  | nil => exact .ok trivial
  | cons t ts ih =>
      obtain ⟨first, others⟩ := List.forall_mem_cons.mp ranked
      rw [arrange_cons]
      refine (move_returns first waits).bind fun r waits' => ?_
      exact ((ih others waits').mono fun _ _ => trivial).map

end Token

end Surd
