import Surd.Token.Postfix

/-!
# The stack of waiting tokens

What the stack does when a token arrives depends on its top only, and on ranks only. A stack *holds* a rank when its
top stays before an operator of that rank; a list *yields* to a rank when every token of it is an operator that
leaves before an operator of that rank. A stack is met in two layers: a part that yields on top of one that holds.
-/

namespace Surd.Token

/-- The top of the stack stays when an operator of rank `n` or above arrives: it is an opening parenthesis or an
operator of a lower rank. -/
def Holds (n : Nat) : List Token → Prop
  | [] => True
  | top :: _ => top.lexeme.isOpening = true ∨ ∃ r < n, top.lexeme.rank? = some r

/-- Every token of the list leaves when an operator of rank `n` or below arrives. -/
def Yields (n : Nat) (ts : List Token) : Prop :=
  ∀ t ∈ ts, ∃ r, n ≤ r ∧ t.lexeme.rank? = some r

variable {m n : Nat} {t : Token} {waiting stack : List Token}

theorem Holds.mono (h : Holds m stack) (hmn : m ≤ n) : Holds n stack := by
  cases stack with
  | nil => trivial
  | cons top _ =>
      obtain hopen | ⟨r, hr, hrank⟩ := h
      · exact .inl hopen
      · exact .inr ⟨r, Nat.lt_of_lt_of_le hr hmn, hrank⟩

theorem Yields.mono (h : Yields n waiting) (hmn : m ≤ n) : Yields m waiting := by
  intro t ht
  obtain ⟨r, hr, hrank⟩ := h t ht
  exact ⟨r, Nat.le_trans hmn hr, hrank⟩

theorem yields_nil (n : Nat) : Yields n [] := fun _ ht => absurd ht List.not_mem_nil

theorem Yields.append (h : Yields n waiting) (ht : t.lexeme.rank? = some n) :
    Yields n (waiting ++ [t]) := by
  intro u hu
  obtain hw | rfl := by simpa only [List.mem_append, List.mem_singleton] using hu
  · exact h u hw
  · exact ⟨n, Nat.le_refl n, ht⟩

/-- A parenthesis has no rank, so a token that has one is none. -/
theorem isOpening_eq_false {l : Lexeme} (h : l.rank? = some n) : l.isOpening = false := by
  cases l with
  | opening => cases h
  | _ => rfl

/-- Between two operators the ranks decide, and equal ranks leave. -/
theorem leavesBefore_of_rank {incoming top : Lexeme} (hi : incoming.rank? = some m)
    (ht : top.rank? = some n) : leavesBefore incoming top = .ok (decide (m ≤ n)) := by
  have ri : rank incoming = .ok m := by rw [rank, hi]
  have rt : rank top = .ok n := by rw [rank, ht]
  cases top with
  | binary op =>
      simp only [leavesBefore, rt, ri]
      rfl
  | negation =>
      simp only [leavesBefore, rt, ri]
      rfl
  | _ => cases ht

theorem unstack_of_holds {incoming : Lexeme} (hi : incoming.rank? = some n) (hs : Holds n stack) :
    unstack incoming stack = .ok ([], stack) := by
  cases stack with
  | nil => rfl
  | cons top below =>
      have stays : leavesBefore incoming top.lexeme = .ok false := by
        obtain hopen | ⟨r, hr, hrank⟩ := hs
        · cases hl : top.lexeme with
          | opening => rfl
          | _ => rw [hl] at hopen; cases hopen
        · rw [leavesBefore_of_rank hi hrank, decide_eq_false (Nat.not_le.mpr hr)]
      rw [unstack, stays]
      rfl

/-- An operator makes exactly the layer above the holding part leave. -/
theorem unstack_append {incoming : Lexeme} (hi : incoming.rank? = some n)
    (hw : Yields n waiting) (hs : Holds n stack) :
    unstack incoming (waiting ++ stack) = .ok (waiting, stack) := by
  induction waiting with
  | nil => exact unstack_of_holds hi hs
  | cons top waiting ih =>
      obtain ⟨r, hr, hrank⟩ := hw top List.mem_cons_self
      have leaves : leavesBefore incoming top.lexeme = .ok true := by
        rw [leavesBefore_of_rank hi hrank, decide_eq_true hr]
      rw [List.cons_append, unstack, leaves, ih fun t ht => hw t (List.mem_cons_of_mem _ ht)]
      rfl

theorem group_append (hw : Yields n waiting) (text : String) (position : Nat) :
    group (waiting ++ ⟨.opening text, position⟩ :: stack) =
      (waiting, ⟨.opening text, position⟩ :: stack) := by
  have inside : ∀ t ∈ waiting, (!t.lexeme.isOpening) = true := by
    intro t ht
    obtain ⟨r, _, hrank⟩ := hw t ht
    rw [isOpening_eq_false hrank, Bool.not_false]
  rw [group, List.takeWhile_append_of_pos inside, List.dropWhile_append_of_pos inside]
  rw [List.takeWhile_cons_of_neg (by simp [Lexeme.isOpening]),
    List.dropWhile_cons_of_neg (by simp [Lexeme.isOpening]), List.append_nil]

/-- No function waits on top of a stack that holds. -/
theorem owner_of_holds (hs : Holds n stack) : owner stack = ([], stack) := by
  cases stack with
  | nil => rfl
  | cons top below =>
      rw [owner]
      split
      · rename_i name hl
        obtain hopen | ⟨r, _, hrank⟩ := hs
        · rw [hl] at hopen; cases hopen
        · rw [hl] at hrank; cases hrank
      · rfl

/-- An operator arrives: the yielding layer goes to the output, and the operator takes its place. -/
theorem arrange_operator (rest : List Token) (ht : t.lexeme.rank? = some n)
    (hw : Yields n waiting) (hs : Holds n stack) :
    arrange (waiting ++ stack) (t :: rest) = (waiting ++ ·) <$> arrange (t :: stack) rest := by
  have hu := unstack_append ht hw hs
  rw [arrange]
  cases hl : t.lexeme with
  | binary op =>
      rw [hl] at hu
      simp only [hu]
      rfl
  | negation =>
      rw [hl] at hu
      simp only [hu]
      rfl
  | _ => rw [hl] at ht; cases ht

theorem arrange_operator_of_holds (rest : List Token) (ht : t.lexeme.rank? = some n)
    (hs : Holds n stack) : arrange stack (t :: rest) = arrange (t :: stack) rest := by
  have h := arrange_operator rest ht (yields_nil n) hs
  simpa only [List.nil_append, id_map'] using h

/-- A closing parenthesis arrives: what waits inside its group goes to the output, and the function that owns the
group, if there is one, follows. -/
theorem arrange_closing (rest : List Token) (hw : Yields n waiting) (opening closing : String)
    (start stop : Nat) :
    arrange (waiting ++ ⟨.opening opening, start⟩ :: stack) (⟨.closing closing, stop⟩ :: rest) =
      (waiting ++ (owner stack).1 ++ ·) <$> arrange (owner stack).2 rest := by
  rw [arrange]
  simp only [group_append hw, List.tail_cons]

end Surd.Token
