import Surd.Proofs.Token.Bare

/-!
# Tokens in parentheses

An opening parenthesis on the stack acts as the bottom of an empty one. While the tokens of a group are moved, as many
of its opening parentheses wait on the stack as the check has counted (`openings_move`), so that none of these tokens
reaches below the one that starts the group (`move_above`). A group leaves as its tokens do by themselves then, and the
function that owns it follows (`arrange_group`).

The check is no stricter inside a group either: what it asks of the neighbours of a token at the start or the end of a
text holds of parentheses (`flawless_group`).
-/

namespace Surd

/-! ## The check -/

namespace Lexeme

variable {last last' : Option Lexeme} {depth outer : Int} {text : String} {ls rest : List Lexeme}

/-- Where the check finds no flaw, no more parentheses are closed than have been opened. -/
theorem Flawless.balance_nonneg (h : Flawless last depth ls) (inside : 0 ≤ depth) : 0 ≤ depth + balance ls := by
  induction ls generalizing last depth with
  | nil => simpa [balance] using inside
  | cons l ls ih =>
      obtain ⟨fine, later⟩ := h
      rw [balance_cons, ← add_assoc]
      exact ih later (nonneg_of_flaws fine inside)

/-- Tokens without a flaw have none in front of a closing parenthesis at a greater depth. -/
theorem flawless_group (flawless : Flawless last depth ls) (inside : 0 ≤ depth) (outside : 0 ≤ outer)
    (before : (last'.map isOperator).getD true = true → (last.map isOperator).getD true = true)
    (more : Flawless (some (.closing text)) (depth + balance ls + outer) rest) :
    Flawless last' (depth + (outer + 1)) (ls ++ .closing text :: rest) := by
  induction ls generalizing last last' depth with
  | nil =>
      have closed : depth + (outer + 1) + (closing text).nesting = depth + balance [] + outer := by
        simp [balance]
        omega
      refine ⟨flaws_closing text _ _ ?_, closed ▸ more⟩
      rw [nesting_closing]
      omega
  | cons l ls ih =>
      obtain ⟨fine, later⟩ := flawless
      have deeper : depth + (outer + 1) + l.nesting = depth + l.nesting + (outer + 1) := by omega
      rw [balance_cons, ← add_assoc] at more
      refine ⟨flaws_mono before ?_ ?_ (by omega) fine, ?_⟩
      · cases ls with
        | nil => exact fun _ => rfl
        | cons => exact id
      · cases ls with
        | nil => exact fun opened => absurd opened Bool.false_ne_true
        | cons => exact id
      · rw [deeper]
        exact ih later (nonneg_of_flaws fine inside) id more

end Lexeme

namespace Token

variable {stack stack' left below ts rest out : List Token} {t : Token} {last : Option Lexeme} {text : String}
  {start : Nat}

/-! ## The stack above a parenthesis -/

theorem group_above (text : String) (start : Nat) (stack below : List Token) :
    group (stack ++ ⟨.opening text, start⟩ :: below) =
      ((group stack).1, (group stack).2 ++ ⟨.opening text, start⟩ :: below) := by
  induction stack with
  | nil => rfl
  | cons top stack ih =>
      obtain ⟨taken, dropped⟩ := Prod.mk.inj ih
      cases opened : top.lexeme.isOpening with
      | true => simp [group, opened]
      | false => simp [group, opened, taken, dropped]

theorem owner_above (text : String) (start : Nat) (stack below : List Token) :
    owner (stack ++ ⟨.opening text, start⟩ :: below) =
      ((owner stack).1, (owner stack).2 ++ ⟨.opening text, start⟩ :: below) := by
  cases stack with
  | nil => rfl
  | cons top stack =>
      rw [List.cons_append, owner, owner]
      split <;> rfl

theorem unstack_above (l : Lexeme) (text : String) (start : Nat) (stack below : List Token) :
    unstack l (stack ++ ⟨.opening text, start⟩ :: below) =
      Prod.map id (· ++ ⟨.opening text, start⟩ :: below) <$> unstack l stack := by
  induction stack with
  | nil => rfl
  | cons top stack ih =>
      rw [List.cons_append, unstack, unstack, ih]
      cases leavesBefore l top.lexeme with
      | error => rfl
      | ok leaves =>
          cases leaves with
          | false => rfl
          | true => cases unstack l stack <;> rfl

/-! ## Opening parentheses on the stack -/

/-- How many opening parentheses wait on the stack. -/
def openings (stack : List Token) : Int := stack.countP (·.lexeme.isOpening)

theorem openings_cons (t : Token) (stack : List Token) :
    openings (t :: stack) = openings stack + if t.lexeme.isOpening then 1 else 0 := by
  rw [openings, List.countP_cons]
  split <;> simp [openings]

/-- Tokens on top of a stack that are no opening parentheses. -/
theorem openings_append (other : ∀ t ∈ left, t.lexeme.isOpening = false) (stack : List Token) :
    openings (left ++ stack) = openings stack := by
  have none : left.countP (·.lexeme.isOpening) = 0 := by simpa using other
  rw [openings, List.countP_append, none, Nat.zero_add, openings]

theorem openings_group (stack : List Token) : openings (group stack).2 = openings stack := by
  conv_rhs => rw [← group_parts stack, openings_append not_opening_of_mem_group]

theorem openings_owner (stack : List Token) : openings (owner stack).2 = openings stack := by
  conv_rhs => rw [← owner_parts stack, openings_append not_opening_of_mem_owner]

theorem Unstacked.openings_eq {l : Lexeme} (h : Unstacked l stack left stack') : openings stack' = openings stack := by
  rw [← h.parts, openings_append h.not_opening]

/-- Where an opening parenthesis waits, a closing one finds it. -/
theorem exists_group (h : 0 < openings stack) :
    ∃ top rest, (group stack).2 = top :: rest ∧ openings rest + 1 = openings stack := by
  have same := openings_group stack
  cases found : (group stack).2 with
  | nil =>
      rw [found] at same
      exact absurd h (same ▸ lt_irrefl _)
  | cons top rest =>
      rw [found, openings_cons, if_pos (isOpening_of_group_cons found)] at same
      exact ⟨top, rest, rfl, same⟩

/-- Where no opening parenthesis waits, all leave. -/
theorem group_of_openings (h : openings stack = 0) : group stack = (stack, []) := by
  have other : ∀ t ∈ stack, (!t.lexeme.isOpening) = true := by simpa [openings] using h
  rw [group, List.takeWhile_eq_self_iff.mpr other, List.dropWhile_eq_nil_iff.mpr other]

/-- The stack has as many opening parentheses as the check counts, as long as no closing one is unmatched. -/
theorem openings_move (h : move stack t = .ok (left, stack')) (matched : 0 ≤ openings stack + t.lexeme.nesting) :
    openings stack' = openings stack + t.lexeme.nesting := by
  cases moved_of_move h with
  | number | «variable» => exact (add_zero _).symm
  | function | opening => rw [openings_cons]; rfl
  | comma => exact (openings_group stack).trans (add_zero _).symm
  | closing =>
      rw [Lexeme.nesting_closing] at matched ⊢
      have waits : 0 < openings stack := by omega
      obtain ⟨top, rest, found, waiting⟩ := exists_group waits
      rw [found, List.tail_cons, openings_owner]
      omega
  | binary parts | negation parts =>
      rw [openings_cons, parts.openings_eq]
      rfl

/-- No token of a group reaches below the parenthesis that starts it. -/
theorem move_above (text : String) (start : Nat) (below : List Token)
    (matched : 0 ≤ openings stack + t.lexeme.nesting) :
    move (stack ++ ⟨.opening text, start⟩ :: below) t =
      Prod.map id (· ++ ⟨.opening text, start⟩ :: below) <$> move stack t := by
  rw [move, move]
  cases hl : t.lexeme with
  | number | «variable» | function | opening => rfl
  | comma => exact congrArg Except.ok (group_above text start stack below)
  | closing =>
      rw [hl, Lexeme.nesting_closing] at matched
      have waits : 0 < openings stack := by omega
      obtain ⟨top, rest, found, _⟩ := exists_group waits
      simp [group_above, found, owner_above]
  | binary | negation =>
      dsimp only
      rw [unstack_above]
      cases unstack _ stack <;> rfl

/-- A group leaves as its tokens do by themselves, and the function that owns it follows. -/
theorem arrange_group (text closing : String) (start stop : Nat) (below rest : List Token)
    (flawless : Lexeme.Flawless last (openings stack) (ts.map lexeme))
    (closed : openings stack + Lexeme.balance (ts.map lexeme) = 0) (arranged : arrange stack ts = .ok out) :
    arrange (stack ++ ⟨.opening text, start⟩ :: below) (ts ++ ⟨.closing closing, stop⟩ :: rest) =
      (out ++ (owner below).1 ++ ·) <$> arrange (owner below).2 rest := by
  induction ts generalizing stack last out with
  | nil =>
      obtain rfl := Except.ok.inj arranged
      have none : openings stack = 0 := by simpa [Lexeme.balance] using closed
      simp [arrange_cons, move, group_above, group_of_openings none, ok_bind]
  | cons t ts ih =>
      obtain ⟨left, stack', out', moved, later, rfl⟩ := exists_of_arrange_cons arranged
      obtain ⟨fine, flawless⟩ := flawless
      -- The depth of the check is the number of opening parentheses on the stack, before this token and after it.
      have matched : 0 ≤ openings stack + t.lexeme.nesting :=
        Lexeme.nonneg_of_flaws fine (Int.natCast_nonneg _)
      have counted := openings_move moved matched
      rw [List.map_cons, Lexeme.balance_cons, ← add_assoc, ← counted] at closed
      have moved_above := move_above text start below matched
      rw [moved] at moved_above
      rw [List.cons_append, arrange_cons, moved_above]
      show (left ++ ·) <$> arrange (stack' ++ _) _ = _
      rw [ih (counted ▸ flawless) closed later]
      cases arrange (owner below).2 rest <;> simp

end Token

end Surd
