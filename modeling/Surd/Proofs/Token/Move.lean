import Surd.Token.Postfix
import Surd.Proofs.Returns
import Mathlib.Data.List.Chain
import Mathlib.Data.List.TakeWhile

/-!
# One token at a time

`move` is what postfix order does when one token arrives: some tokens leave, and the others make the new stack. `Moved`
has one case for each kind of token, so what a move keeps is seen by cases, and it carries over to whole lists by
`arrange_cons`. A function lies on the stack below the parenthesis that follows it, and only for as long as it takes to
read that one does it lie on top (`owned_move`).
-/

namespace Surd

/-- A function, which waits for the parenthesis that follows it. -/
def Lexeme.isFunction : Lexeme → Bool
  | .function _ => true
  | _ => false

/-- A numeral or a variable. -/
def Lexeme.isOperand : Lexeme → Bool
  | .number _ => true
  | .variable _ => true
  | _ => false

/-- A parenthesis or a comma, which has no place in postfix order where parentheses match. -/
def Lexeme.isDelimiter : Lexeme → Bool
  | .opening _ => true
  | .closing _ => true
  | .comma _ => true
  | _ => false

theorem Lexeme.isDelimiter_of_isOpening {l : Lexeme} (h : l.isOpening = true) : l.isDelimiter = true := by
  cases l with
  | opening => rfl
  | _ => cases h

theorem Lexeme.isFunction_of_isOpening {l : Lexeme} (h : l.isOpening = true) : l.isFunction = false := by
  cases l with
  | opening => rfl
  | _ => cases h

namespace Token

/-- One token arrives: what leaves for the output, and the stack after it. -/
def move (stack : List Token) (t : Token) : Except Fault (List Token × List Token) :=
  match t.lexeme with
  | .number _ => .ok ([t], stack)
  | .variable _ => .ok ([t], stack)
  | .function _ => .ok ([], t :: stack)
  | .opening _ => .ok ([], t :: stack)
  | .comma _ => .ok (group stack)
  | .closing _ =>
    let (out, below) := group stack
    let (function, below) := owner below.tail
    .ok (out ++ function, below)
  | l => do
    let (out, stays) ← unstack l stack
    return (out, t :: stays)

variable {stack stack' left ts out : List Token} {t : Token}

/-- Postfix order, token by token. -/
theorem arrange_cons (stack : List Token) (t : Token) (ts : List Token) :
    arrange stack (t :: ts) = move stack t >>= fun r => (r.1 ++ ·) <$> arrange r.2 ts := by
  rw [arrange, move]
  cases t.lexeme with
  | number | «variable» | comma | closing => rfl
  | function | opening =>
      show arrange (t :: stack) ts = ([] ++ ·) <$> arrange (t :: stack) ts
      simp
  | binary | negation =>
      dsimp only
      cases unstack _ stack <;> rfl

theorem exists_of_arrange_cons (h : arrange stack (t :: ts) = .ok out) :
    ∃ left stack' out', move stack t = .ok (left, stack') ∧ arrange stack' ts = .ok out' ∧ out = left ++ out' := by
  rw [arrange_cons] at h
  obtain ⟨⟨left, stack'⟩, moved, h⟩ := exists_of_bind_eq_ok h
  obtain ⟨out', later, rfl⟩ := exists_of_map_eq_ok h
  exact ⟨left, stack', out', moved, later, rfl⟩

/-- An operator makes the top of the stack leave, token by token, down to one that stays. -/
inductive Unstacked (incoming : Lexeme) : List Token → List Token → List Token → Prop
  | nil : Unstacked incoming [] [] []
  | leaves {top rest out stays} (decided : leavesBefore incoming top.lexeme = .ok true)
      (below : Unstacked incoming rest out stays) : Unstacked incoming (top :: rest) (top :: out) stays
  | stays {top rest} (decided : leavesBefore incoming top.lexeme = .ok false) :
      Unstacked incoming (top :: rest) [] (top :: rest)

theorem unstacked_of_unstack {l : Lexeme} (h : unstack l stack = .ok (left, stack')) :
    Unstacked l stack left stack' := by
  induction stack generalizing left stack' with
  | nil =>
      obtain ⟨rfl, rfl⟩ := Except.ok.inj h
      exact .nil
  | cons top rest ih =>
      rw [unstack] at h
      obtain ⟨leaves, decided, h⟩ := exists_of_bind_eq_ok h
      cases leaves with
      | true =>
          obtain ⟨⟨out, stays⟩, below, h⟩ := exists_of_bind_eq_ok h
          obtain ⟨rfl, rfl⟩ := Except.ok.inj h
          exact .leaves decided (ih below)
      | false =>
          obtain ⟨rfl, rfl⟩ := Except.ok.inj h
          exact .stays decided

/-- What one token does to the stack: some tokens leave, and the others make the new stack. -/
inductive Moved : List Token → Token → List Token → List Token → Prop
  | number {stack text p} : Moved stack ⟨.number text, p⟩ [⟨.number text, p⟩] stack
  | «variable» {stack name p} : Moved stack ⟨.variable name, p⟩ [⟨.variable name, p⟩] stack
  | function {stack name p} : Moved stack ⟨.function name, p⟩ [] (⟨.function name, p⟩ :: stack)
  | opening {stack text p} : Moved stack ⟨.opening text, p⟩ [] (⟨.opening text, p⟩ :: stack)
  | comma {stack text p} : Moved stack ⟨.comma text, p⟩ (group stack).1 (group stack).2
  | closing {stack text p} : Moved stack ⟨.closing text, p⟩ ((group stack).1 ++ (owner (group stack).2.tail).1)
      (owner (group stack).2.tail).2
  | binary {stack op p out stays} (parts : Unstacked (.binary op) stack out stays) :
      Moved stack ⟨.binary op, p⟩ out (⟨.binary op, p⟩ :: stays)
  | negation {stack p out stays} (parts : Unstacked .negation stack out stays) :
      Moved stack ⟨.negation, p⟩ out (⟨.negation, p⟩ :: stays)

theorem moved_of_move (h : move stack t = .ok (left, stack')) : Moved stack t left stack' := by
  obtain ⟨l, p⟩ := t
  cases l with
  | number | «variable» | function | opening | comma | closing =>
      cases h
      constructor
  | binary | negation =>
      obtain ⟨⟨out, stays⟩, parts, h⟩ := exists_of_bind_eq_ok h
      obtain ⟨rfl, rfl⟩ := Except.ok.inj h
      constructor
      exact unstacked_of_unstack parts

/-! ## Nothing is lost but delimiters -/

theorem Unstacked.parts {l : Lexeme} (h : Unstacked l stack left stack') : left ++ stack' = stack := by
  induction h with
  | nil | stays => rfl
  | leaves _ _ ih => rw [List.cons_append, ih]

theorem group_parts (stack : List Token) : (group stack).1 ++ (group stack).2 = stack :=
  List.takeWhile_append_dropWhile

theorem owner_parts (stack : List Token) : (owner stack).1 ++ (owner stack).2 = stack := by
  cases stack with
  | nil => rfl
  | cons top rest =>
      rw [owner]
      split <;> rfl

/-- A group is taken off the stack down to an opening parenthesis or to the bottom. -/
theorem isOpening_of_group_cons {top : Token} {rest : List Token} (h : (group stack).2 = top :: rest) :
    top.lexeme.isOpening = true := by
  have stop := List.head?_dropWhile_not (fun t : Token => !t.lexeme.isOpening) stack
  have found : (stack.dropWhile fun t => !t.lexeme.isOpening) = top :: rest := h
  rw [found] at stop
  simpa using stop

theorem not_opening_of_mem_group : ∀ t ∈ (group stack).1, t.lexeme.isOpening = false := by
  intro t ht
  simpa using List.mem_takeWhile_imp ht

theorem not_opening_of_mem_owner : ∀ t ∈ (owner stack).1, t.lexeme.isOpening = false := by
  cases stack with
  | nil => exact List.forall_mem_nil _
  | cons top rest =>
      rw [owner]
      split
      · rename_i function
        exact List.forall_mem_singleton.mpr (by rw [function]; rfl)
      · exact List.forall_mem_nil _

/-- An operator makes no opening parenthesis leave. -/
theorem Unstacked.not_opening {l : Lexeme} (h : Unstacked l stack left stack') :
    ∀ t ∈ left, t.lexeme.isOpening = false := by
  induction h with
  | nil | stays => exact List.forall_mem_nil _
  | @leaves top _ _ _ decided _ ih =>
      refine List.forall_mem_cons.mpr ⟨?_, ih⟩
      cases hl : top.lexeme with
      | opening =>
          rw [hl] at decided
          cases decided
      | _ => rfl

/-- The token that arrives and the stack that it finds are what leaves and the stack after it, but for delimiters. -/
theorem exists_perm_of_move (h : move stack t = .ok (left, stack')) :
    ∃ lost, (lost ++ (left ++ stack')).Perm (t :: stack) ∧ ∀ u ∈ lost, u.lexeme.isDelimiter = true := by
  cases moved_of_move h with
  | number | «variable» | function | opening => exact ⟨[], .refl _, List.forall_mem_nil _⟩
  | @comma text p =>
      refine ⟨[⟨.comma text, p⟩], ?_, List.forall_mem_singleton.mpr rfl⟩
      rw [group_parts]
      exact .refl _
  | @closing text p =>
      have parts := group_parts stack
      rw [List.append_assoc, owner_parts]
      cases below : (group stack).2 with
      | nil =>
          rw [below] at parts
          refine ⟨[⟨.closing text, p⟩], ?_, List.forall_mem_singleton.mpr rfl⟩
          have all : (group stack).1 = stack := by simpa using parts
          simp [all]
      | cons top rest =>
          rw [below] at parts
          refine ⟨[⟨.closing text, p⟩, top], ?_, ?_⟩
          · conv_rhs => rw [← parts]
            show (⟨.closing text, p⟩ :: top :: ((group stack).1 ++ rest)).Perm _
            exact List.perm_middle.symm.cons _
          · have delimiter := Lexeme.isDelimiter_of_isOpening (isOpening_of_group_cons below)
            simp only [List.forall_mem_cons]
            exact ⟨rfl, delimiter, List.forall_mem_nil _⟩
  | binary parts | negation parts =>
      refine ⟨[], ?_, List.forall_mem_nil _⟩
      rw [← parts.parts]
      exact List.perm_middle

theorem mem_of_move (h : move stack t = .ok (left, stack')) : ∀ u ∈ left ++ stack', u ∈ t :: stack := by
  obtain ⟨lost, perm, _⟩ := exists_perm_of_move h
  exact fun u hu => perm.subset (List.mem_append_right lost hu)

/-- Postfix order has the tokens of the list and of the stack, but for delimiters. -/
theorem exists_perm_of_arrange (h : arrange stack ts = .ok out) :
    ∃ lost, (lost ++ out).Perm (ts ++ stack) ∧ ∀ u ∈ lost, u.lexeme.isDelimiter = true := by
  induction ts generalizing stack out with
  | nil =>
      obtain rfl := Except.ok.inj h
      exact ⟨[], .refl _, List.forall_mem_nil _⟩
  | cons t ts ih =>
      obtain ⟨left, stack', out', moved, later, rfl⟩ := exists_of_arrange_cons h
      obtain ⟨lost, first, here⟩ := exists_perm_of_move moved
      obtain ⟨lost', rest, there⟩ := ih later
      refine ⟨lost ++ lost', ?_, List.forall_mem_append.mpr ⟨here, there⟩⟩
      have inner : (lost' ++ (left ++ out')).Perm (left ++ (ts ++ stack')) :=
        (List.perm_append_comm_assoc lost' left out').trans (rest.append_left left)
      calc (lost ++ lost' ++ (left ++ out')).Perm (lost ++ (left ++ (ts ++ stack'))) := by
            simpa using inner.append_left lost
        List.Perm _ (ts ++ (lost ++ (left ++ stack'))) := by
            simpa using List.perm_append_comm_assoc (lost ++ left) ts stack'
        List.Perm _ (ts ++ t :: stack) := first.append_left ts
        List.Perm _ (t :: ts ++ stack) := List.perm_middle

/-- Postfix order has no token that was not there. -/
theorem mem_of_mem_arrange (h : arrange stack ts = .ok out) : ∀ t ∈ out, t ∈ stack ∨ t ∈ ts := by
  obtain ⟨lost, perm, _⟩ := exists_perm_of_arrange h
  intro t ht
  exact (List.mem_append.mp (perm.subset (List.mem_append_right lost ht))).symm

/-- Every token of a list but delimiters is in its postfix order. -/
theorem mem_arrange (h : arrange stack ts = .ok out) (ht : t ∈ ts) (kept : t.lexeme.isDelimiter = false) : t ∈ out := by
  obtain ⟨lost, perm, delimiters⟩ := exists_perm_of_arrange h
  refine (List.mem_append.mp (perm.symm.subset (List.mem_append_left stack ht))).resolve_left fun there => ?_
  exact Bool.false_ne_true (kept.symm.trans (delimiters t there))

/-! ## Operands keep their order -/

/-- The operands among tokens, in order. -/
def operands (ts : List Token) : List Token := ts.filter (·.lexeme.isOperand)

theorem operands_append (ts us : List Token) : operands (ts ++ us) = operands ts ++ operands us := List.filter_append ts us

theorem operands_eq_nil_iff : operands ts = [] ↔ ∀ t ∈ ts, t.lexeme.isOperand = false := by
  simp [operands, List.filter_eq_nil_iff]

/-- An operand leaves at once, and no other token makes one wait. -/
theorem operands_move (h : move stack t = .ok (left, stack')) (none : operands stack = []) :
    operands left = operands [t] ∧ operands stack' = [] := by
  cases ht : t.lexeme.isOperand with
  | true =>
      cases moved_of_move h with
      | number | «variable» => exact ⟨rfl, none⟩
      | _ => cases ht
  | false =>
      have others : ∀ u ∈ left ++ stack', u.lexeme.isOperand = false := by
        intro u hu
        obtain rfl | hu := List.mem_cons.mp (mem_of_move h u hu)
        · exact ht
        · exact operands_eq_nil_iff.mp none u hu
      obtain ⟨leaving, staying⟩ := List.forall_mem_append.mp others
      rw [operands_eq_nil_iff.mpr leaving, operands_eq_nil_iff.mpr staying,
        operands_eq_nil_iff.mpr (List.forall_mem_singleton.mpr ht)]
      exact ⟨rfl, rfl⟩

/-- Operands leave in the order in which they come. -/
theorem operands_arrange (h : arrange stack ts = .ok out) (none : operands stack = []) : operands out = operands ts := by
  induction ts generalizing stack out with
  | nil =>
      obtain rfl := Except.ok.inj h
      exact none
  | cons t ts ih =>
      obtain ⟨left, stack', out', moved, later, rfl⟩ := exists_of_arrange_cons h
      obtain ⟨here, none'⟩ := operands_move moved none
      rw [operands_append, here, ih later none', ← operands_append, List.singleton_append]

/-! ## Functions on the stack -/

/-- Every function on the stack lies below the parenthesis that follows it. -/
def Owned (stack : List Token) : Prop :=
  stack.IsChain fun above below => below.lexeme.isFunction = true → above.lexeme.isOpening = true

/-- No function lies on top of the stack. -/
def Free (stack : List Token) : Prop := ∀ t ∈ stack.head?, t.lexeme.isFunction = false

theorem Free.owner (h : Free stack) : Token.owner stack = ([], stack) := by
  cases stack with
  | nil => rfl
  | cons top rest =>
      rw [Token.owner]
      split
      · rename_i function
        have free := h top rfl
        rw [function] at free
        cases free
      · rfl

theorem Free.owned_cons (h : Free stack) (owned : Owned stack) (t : Token) : Owned (t :: stack) := by
  cases stack with
  | nil => exact List.isChain_singleton t
  | cons top rest =>
      refine List.isChain_cons_cons.mpr ⟨fun function => ?_, owned⟩
      exact absurd function (by simp [h top rfl])

theorem free_group (stack : List Token) : Free (group stack).2 := by
  intro t ht
  obtain ⟨_, below⟩ := List.head?_eq_some_iff.mp ht
  exact Lexeme.isFunction_of_isOpening (isOpening_of_group_cons below)

theorem free_owner (owned : Owned stack) : Free (Token.owner stack).2 := by
  cases stack with
  | nil => simp [Token.owner, Free]
  | cons top rest =>
      rw [Token.owner]
      split
      · rename_i function
        intro below there
        obtain ⟨_, rfl⟩ := List.head?_eq_some_iff.mp there
        by_contra another
        have opening := (List.isChain_cons_cons.mp owned).1 (by simpa using another)
        rw [function] at opening
        cases opening
      · rename_i other
        rintro _ ⟨⟩
        cases hl : top.lexeme with
        | function name => exact absurd hl (other name)
        | _ => rfl

theorem Unstacked.free {l : Lexeme} (h : Unstacked l stack left stack') : Free stack' := by
  induction h with
  | nil => simp [Free]
  | leaves _ _ ih => exact ih
  | @stays top _ decided =>
      rintro _ ⟨⟩
      cases hl : top.lexeme with
      | function =>
          rw [hl] at decided
          cases decided
      | _ => rfl

/-- What a token leaves on the stack is in order, and only a function can be a function on top of it. -/
theorem owned_move (h : move stack t = .ok (left, stack')) (owned : Owned stack)
    (free : t.lexeme.isOpening = false → Free stack) :
    Owned stack' ∧ (t.lexeme.isFunction = false → Free stack') := by
  cases moved_of_move h with
  | number | «variable» => exact ⟨owned, fun _ => free rfl⟩
  | function => exact ⟨(free rfl).owned_cons owned _, nofun⟩
  | opening =>
      refine ⟨List.isChain_cons.mpr ⟨fun _ _ _ => rfl, owned⟩, fun _ => ?_⟩
      rintro _ ⟨⟩
      rfl
  | comma => exact ⟨owned.suffix (List.dropWhile_suffix _), fun _ => free_group stack⟩
  | closing =>
      have inner : Owned (group stack).2.tail := (owned.suffix (List.dropWhile_suffix _)).tail
      exact ⟨inner.suffix ⟨_, owner_parts _⟩, fun _ => free_owner inner⟩
  | binary parts | negation parts =>
      refine ⟨parts.free.owned_cons (owned.suffix ⟨_, parts.parts⟩) _, fun _ => ?_⟩
      rintro _ ⟨⟩
      rfl

end Token

end Surd
