import Surd.Proofs.Phrase.Acceptance

/-!
# Positions do not matter

The check and the tree of a token list depend on what the tokens are and not on where they stand. `Flawless` is the
check without positions, and `arrange_map` moves any change of positions through the postfix order. So the tree of a
list of tokens, or the reason why there is none, is that of their lexemes (`Parsed.ofTokens_congr`).
-/

namespace Surd

variable {ts us stack : List Token} {ls : List Lexeme} {l : Lexeme} {last last' : Option Lexeme} {depth depth' : Int}

/-! ## The check -/

namespace Lexeme

/-- The check finds no flaw in tokens that follow `last` at a depth of parentheses. -/
def Flawless (last : Option Lexeme) (depth : Int) : List Lexeme → Prop
  | [] => True
  | l :: rest =>
    l.flaws last rest.head? (depth + l.nesting) = [] ∧ Flawless (some l) (depth + l.nesting) rest

/-- How many more parentheses are opened than closed. -/
def balance (ls : List Lexeme) : Int := (ls.map nesting).sum

theorem balance_append (ls ls' : List Lexeme) : balance (ls ++ ls') = balance ls + balance ls' := by
  simp [balance]

theorem balance_cons (l : Lexeme) (ls : List Lexeme) : balance (l :: ls) = l.nesting + balance ls := by
  simp [balance]

/-- The check sees of the neighbours of a token whether the one before it is an operator and the one after it an
operation or a parenthesis, and a closing parenthesis is right at any depth above one at which it is right. -/
theorem flaws_mono {next next' : Option Lexeme}
    (before : (last'.map isOperator).getD true = true → (last.map isOperator).getD true = true)
    (after : (next'.map isBinary).getD true = true → (next.map isBinary).getD true = true)
    (opened : (next.map isOpening).getD false = true → (next'.map isOpening).getD false = true)
    (deeper : depth ≤ depth') (h : l.flaws last next depth = []) : l.flaws last' next' depth' = [] := by
  cases l with
  | function name =>
      simp only [flaws, ite_eq_left_iff, reduceCtorEq, imp_false, not_not] at h ⊢
      exact opened h
  | binary op =>
      simp only [flaws, List.append_eq_nil_iff, ite_eq_right_iff, reduceCtorEq, imp_false] at h ⊢
      exact ⟨mt before h.1, mt after h.2⟩
  | negation =>
      simp only [flaws, ite_eq_right_iff, reduceCtorEq, imp_false] at h ⊢
      exact mt after h
  | closing text =>
      simp only [flaws, ite_eq_right_iff, reduceCtorEq, imp_false] at h ⊢
      exact fun below => h (deeper.trans_lt below)
  | _ => rfl

end Lexeme

namespace Token

open Lexeme (Flawless)

theorem complaints_eq_nil_iff : complaints last depth ts = [] ↔ Flawless last depth (ts.map lexeme) := by
  induction ts generalizing last depth with
  | nil => simp [complaints, Flawless]
  | cons t ts ih => simp [complaints, Flawless, ih, List.head?_map]

theorem balance_eq (ts : List Token) : balance ts = Lexeme.balance (ts.map lexeme) := by
  have from_depth : ∀ depth, ts.foldl (fun depth t => depth + t.lexeme.nesting) depth =
      depth + Lexeme.balance (ts.map lexeme) := by
    induction ts with
    | nil => simp [Lexeme.balance]
    | cons t ts ih =>
        intro depth
        rw [List.foldl_cons, ih]
        simp [Lexeme.balance, add_assoc]
  rw [balance, from_depth, zero_add]

theorem check_eq_nil_iff :
    check ts = [] ↔ Flawless none 0 (ts.map lexeme) ∧ Lexeme.balance (ts.map lexeme) ≤ 0 := by
  rw [check, List.append_eq_nil_iff, complaints_eq_nil_iff, balance_eq]
  simp

/-! ## Tokens at the start -/

/-- A token at the start of a text. -/
def ofLexeme (l : Lexeme) : Token := ⟨l, 0⟩

/-- The same token at the start of a text. -/
def bare (t : Token) : Token := ofLexeme t.lexeme

theorem lexeme_bare (t : Token) : t.bare.lexeme = t.lexeme := rfl

theorem map_bare_congr (same : ts.map lexeme = us.map lexeme) : ts.map bare = us.map bare := by
  have erased : (ts.map lexeme).map ofLexeme = (us.map lexeme).map ofLexeme := by rw [same]
  rwa [List.map_map, List.map_map] at erased

theorem flaw_complaints_bare (ts : List Token) (last : Option Lexeme) (depth : Int) :
    (complaints last depth (ts.map bare)).map Complaint.flaw = (complaints last depth ts).map Complaint.flaw := by
  induction ts generalizing last depth with
  | nil => rfl
  | cons t ts ih => simp [complaints, lexeme_bare, ih, Function.comp_def]

theorem flaw_check_bare (ts : List Token) : (check (ts.map bare)).map Complaint.flaw = (check ts).map Complaint.flaw := by
  have same : balance (ts.map bare) = balance ts := by
    rw [balance_eq, balance_eq, List.map_map]
    rfl
  rw [check, check, List.map_append, List.map_append, flaw_complaints_bare, same]
  split <;> rfl

/-- The flaws that the check reports depend on the lexemes only. -/
theorem flaw_check_congr (same : ts.map lexeme = us.map lexeme) :
    (check ts).map Complaint.flaw = (check us).map Complaint.flaw := by
  rw [← flaw_check_bare ts, ← flaw_check_bare us, map_bare_congr same]

/-! ## The tree -/

variable {e : Token → Token}

theorem unstack_map (he : ∀ t, (e t).lexeme = t.lexeme) (l : Lexeme) (stack : List Token) :
    unstack l (stack.map e) = Prod.map (List.map e) (List.map e) <$> unstack l stack := by
  induction stack with
  | nil => rfl
  | cons top rest ih =>
      rw [List.map_cons, unstack, unstack, he, ih]
      cases leavesBefore l top.lexeme with
      | error => rfl
      | ok leaves =>
          cases leaves with
          | false => rfl
          | true => cases unstack l rest <;> rfl

theorem group_map (he : ∀ t, (e t).lexeme = t.lexeme) (stack : List Token) :
    group (stack.map e) = ((group stack).1.map e, (group stack).2.map e) := by
  simp [group, List.takeWhile_map, List.dropWhile_map, Function.comp_def, he]

theorem owner_map (he : ∀ t, (e t).lexeme = t.lexeme) (stack : List Token) :
    owner (stack.map e) = ((owner stack).1.map e, (owner stack).2.map e) := by
  cases stack with
  | nil => rfl
  | cons top rest =>
      rw [List.map_cons, owner, owner, he]
      split <;> rfl

theorem move_map (he : ∀ t, (e t).lexeme = t.lexeme) (stack : List Token) (t : Token) :
    move (stack.map e) (e t) = Prod.map (List.map e) (List.map e) <$> move stack t := by
  rw [move, move, he]
  cases t.lexeme with
  | number | «variable» | function | opening => rfl
  | comma => exact congrArg Except.ok (group_map he stack)
  | closing => simp [group_map he, ← List.map_tail, owner_map he]
  | binary | negation =>
      dsimp only
      rw [unstack_map he]
      cases unstack _ stack <;> rfl

theorem arrange_map (he : ∀ t, (e t).lexeme = t.lexeme) (stack ts : List Token) :
    arrange (stack.map e) (ts.map e) = List.map e <$> arrange stack ts := by
  induction ts generalizing stack with
  | nil => rfl
  | cons t ts ih =>
      rw [List.map_cons, arrange_cons, arrange_cons, move_map he]
      cases move stack t with
      | error => rfl
      | ok r =>
          show _ <$> arrange (r.2.map e) (ts.map e) = List.map e <$> (_ <$> arrange r.2 ts)
          rw [ih]
          cases arrange r.2 ts <;> simp [Prod.map]

end Token

namespace Tree

theorem assemble_map {e : Token → Token} (he : ∀ t, (e t).lexeme = t.lexeme) (stack : List Tree) (ts : List Token) :
    assemble stack (ts.map e) = assemble stack ts := by
  induction ts generalizing stack with
  | nil => rfl
  | cons t ts ih => simp [assemble, he, ih]

/-- The tree of a token list depends on its lexemes only. -/
theorem ofTokens_congr (same : ts.map Token.lexeme = us.map Token.lexeme) : ofTokens ts = ofTokens us := by
  have bare (ts : List Token) : ofTokens (ts.map Token.bare) = ofTokens ts := by
    have arranged := Token.arrange_map Token.lexeme_bare [] ts
    rw [List.map_nil] at arranged
    rw [ofTokens, ofTokens, Token.toPostfix, Token.toPostfix, arranged]
    cases Token.arrange [] ts with
    | error => rfl
    | ok out => exact assemble_map Token.lexeme_bare [] out
  rw [← bare ts, ← bare us, Token.map_bare_congr same]

end Tree

namespace Parsed

/-- The tree of a token list, or the reason why it has none, depends on its lexemes only. -/
theorem ofTokens_congr (same : ts.map Token.lexeme = us.map Token.lexeme) :
    (ofTokens ts).tree? = (ofTokens us).tree? ∧ (ofTokens ts).rejection? = (ofTokens us).rejection? := by
  have flaws := Token.flaw_check_congr same
  have empty : ts.isEmpty = us.isEmpty := by simpa using congrArg List.isEmpty same
  rw [ofTokens, ofTokens, empty, Tree.ofTokens_congr same]
  split
  · exact ⟨rfl, rfl⟩
  · cases checked : Token.check ts with
    | nil =>
        rw [checked] at flaws
        rw [List.map_eq_nil_iff.mp flaws.symm]
        cases Tree.ofTokens us <;> exact ⟨rfl, rfl⟩
    | cons c others =>
        rw [checked] at flaws
        obtain ⟨c', others', checked', first, _⟩ := List.map_eq_cons_iff.mp flaws.symm
        rw [checked']
        simp [tree?, rejection?, first]

end Parsed

end Surd
