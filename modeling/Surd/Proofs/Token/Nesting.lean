import Surd.Proofs.Token.Bare

/-!
# Balanced parentheses

The words of balanced parentheses are those of a grammar, `Lexeme.Balanced`. In a list of lexemes some closing parentheses
close nothing that is opened in the list; `Lexeme.unopened` counts them from the right. The first of them comes after
balanced parentheses (`exists_closing`), so that the grammar is met by counting (`balanced_iff`), and an opening parenthesis
has the closing one that belongs to it exactly if the lexemes behind it have such a closing one (`unopened_pos_iff`).
-/

namespace Surd.Lexeme

variable {ls ls' word : List Lexeme} {l : Lexeme} {n : Nat}

def isParenthesis (l : Lexeme) : Bool := l.isOpening || l.isClosing

/-- The parentheses of a list, without what stands between them. -/
def parentheses (ls : List Lexeme) : List Lexeme := ls.filter isParenthesis

/-- The words of balanced parentheses: the empty one, and a word in parentheses with a word behind it. -/
inductive Balanced : List Lexeme → Prop
  | nil : Balanced []
  | group {inner rest} (opening closing : String) (inside : Balanced inner) (after : Balanced rest) :
      Balanced (.opening opening :: (inner ++ .closing closing :: rest))

theorem parentheses_append (ls ls' : List Lexeme) :
    parentheses (ls ++ ls') = parentheses ls ++ parentheses ls' :=
  List.filter_append ls ls'

theorem parentheses_cons_of_pos (hl : l.isParenthesis = true) (ls : List Lexeme) :
    parentheses (l :: ls) = l :: parentheses ls :=
  List.filter_cons_of_pos hl

theorem parentheses_cons_of_neg (hl : l.isParenthesis = false) (ls : List Lexeme) :
    parentheses (l :: ls) = parentheses ls :=
  List.filter_cons_of_neg (ne_true_of_eq_false hl)

/-! ## Counting -/

/-- The number of closing parentheses that close nothing, with a lexeme in front of `n` of them: an opening parenthesis is
closed by the first of them. -/
def unopenedWith (n : Nat) : Lexeme → Nat
  | opening _ => n - 1
  | closing _ => n + 1
  | _ => n

/-- How many closing parentheses of a list close nothing that is opened in it. -/
def unopened : List Lexeme → Nat
  | [] => 0
  | l :: ls => l.unopenedWith (unopened ls)

theorem unopenedWith_of_not (hl : l.isParenthesis = false) : l.unopenedWith n = n := by
  cases l with
  | opening | closing => cases hl
  | _ => rfl

theorem nesting_of_not (hl : l.isParenthesis = false) : l.nesting = 0 := by
  cases l with
  | opening | closing => cases hl
  | _ => rfl

theorem unopened_parentheses_append (ls ls' : List Lexeme) : unopened (parentheses ls ++ ls') = unopened (ls ++ ls') := by
  induction ls with
  | nil => rfl
  | cons l ls ih =>
      cases hl : l.isParenthesis with
      | true =>
          rw [parentheses_cons_of_pos hl]
          exact congrArg (unopenedWith · l) ih
      | false =>
          rw [parentheses_cons_of_neg hl, List.cons_append, unopened, unopenedWith_of_not hl]
          exact ih

theorem balance_parentheses (ls : List Lexeme) : balance (parentheses ls) = balance ls := by
  induction ls with
  | nil => rfl
  | cons l ls ih =>
      cases hl : l.isParenthesis with
      | true => rw [parentheses_cons_of_pos hl, balance_cons, balance_cons, ih]
      | false => rw [parentheses_cons_of_neg hl, balance_cons, nesting_of_not hl, zero_add, ih]

/-- What is opened in a list takes back no more than what is closed in it. -/
theorem neg_unopened_le_balance (ls : List Lexeme) : -(unopened ls : Int) ≤ balance ls := by
  induction ls with
  | nil => exact le_rfl
  | cons l ls ih =>
      rw [balance_cons, unopened]
      cases l <;> simp only [unopenedWith, nesting] <;> omega

/-! ## The grammar -/

theorem Balanced.unopened_append (h : Balanced word) (ls : List Lexeme) : unopened (word ++ ls) = unopened ls := by
  induction h generalizing ls with
  | nil => rfl
  | group opening closing _ _ inside after =>
      rw [List.cons_append, List.append_assoc, List.cons_append, unopened, inside, unopened, after]
      exact Nat.add_sub_cancel _ _

theorem Balanced.balance_eq (h : Balanced word) : balance word = 0 := by
  induction h with
  | nil => rfl
  | group opening closing _ _ inside after =>
      simp [balance_cons, balance_append, inside, after]

/-- The first closing parenthesis that closes nothing comes after balanced parentheses. By the length of the list: behind
an opening parenthesis the first one closes that, and the second one is the first of what is left. -/
theorem exists_closing (h : 0 < unopened ls) : ∃ inner closing after, ls = inner ++ .closing closing :: after ∧
    Balanced (parentheses inner) ∧ unopened after + 1 = unopened ls := by
  induction hn : ls.length using Nat.strongRecOn generalizing ls with
  | ind n ih =>
  subst hn
  cases ls with
  | nil => cases h
  | cons l ls =>
      have other (hl : l.isParenthesis = false) : ∃ inner closing after, l :: ls = inner ++ .closing closing :: after ∧
          Balanced (parentheses inner) ∧ unopened after + 1 = unopened (l :: ls) := by
        rw [unopened, unopenedWith_of_not hl] at h ⊢
        obtain ⟨inner, closing, after, rfl, balanced, count⟩ := ih _ (Nat.lt_succ_self _) h rfl
        refine ⟨l :: inner, closing, after, rfl, ?_, count⟩
        rwa [parentheses_cons_of_neg hl]
      cases l with
      | closing text => exact ⟨[], text, ls, rfl, .nil, rfl⟩
      | opening text =>
          have enough : 1 < unopened ls := Nat.lt_of_sub_pos h
          obtain ⟨inner, closing, middle, rfl, inside, first⟩ := ih _ (Nat.lt_succ_self _) (by omega) rfl
          obtain ⟨between, stop, after, rfl, outside, second⟩ :=
            ih middle.length (by simp only [List.length_cons, List.length_append]; omega) (by omega) rfl
          refine ⟨.opening text :: (inner ++ .closing closing :: between), stop, after, by simp, ?_, ?_⟩
          · rw [parentheses_cons_of_pos rfl, parentheses_append, parentheses_cons_of_pos rfl]
            exact .group text closing inside outside
          · show _ = unopened _ - 1
            omega
      | _ => exact other rfl

/-- An opening parenthesis in front of a list is closed in it: between the two the parentheses are balanced. -/
theorem unopened_pos_iff : 0 < unopened ls ↔
    ∃ inner closing after, ls = inner ++ .closing closing :: after ∧ Balanced (parentheses inner) := by
  constructor
  · intro h
    obtain ⟨inner, closing, after, split, balanced, _⟩ := exists_closing h
    exact ⟨inner, closing, after, split, balanced⟩
  · rintro ⟨inner, closing, after, rfl, balanced⟩
    rw [← unopened_parentheses_append, balanced.unopened_append]
    exact Nat.succ_pos _

/-- The parentheses of a list are balanced if each that is closed has been opened and each that is opened is closed. -/
theorem balanced_iff : Balanced (parentheses ls) ↔ unopened ls = 0 ∧ balance ls = 0 := by
  constructor
  · intro h
    have count := unopened_parentheses_append ls []
    rw [h.unopened_append, List.append_nil] at count
    exact ⟨count.symm, (balance_parentheses ls).symm.trans h.balance_eq⟩
  · rintro ⟨opened, closed⟩
    -- A closing parenthesis behind the list closes nothing, and it is the first one that does.
    have least := neg_unopened_le_balance (ls ++ [.closing ")"])
    rw [balance_append, closed] at least
    have unmatched : 0 < unopened (ls ++ [.closing ")"]) := by
      have one : balance [.closing ")"] = -1 := rfl
      omega
    obtain ⟨inner, closing, after, split, inside, _⟩ := exists_closing unmatched
    obtain rfl | ⟨after, last, rfl⟩ := List.eq_nil_or_concat after
    · obtain ⟨rfl, _⟩ := List.append_inj' split rfl
      exact inside
    · have before : ls = inner ++ .closing closing :: after := by
        rw [List.concat_eq_append, ← List.cons_append, ← List.append_assoc] at split
        exact (List.append_inj' split rfl).1
      exact absurd opened (unopened_pos_iff.mpr ⟨inner, closing, after, before, inside⟩).ne'

end Surd.Lexeme
