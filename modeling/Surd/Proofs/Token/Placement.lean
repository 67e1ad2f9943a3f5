import Surd.Proofs.Token.Nesting

/-!
# What passes the check

The check goes through the tokens with the one before, the one after and a depth of parentheses that may fall below zero
and rise again. What it asks is said without that walk: every token has the neighbours it needs (`Lexeme.Placed`), and the
parentheses are balanced (`check_eq_nil_iff_placed`). Every complaint is about a token of the list.
-/

namespace Surd

variable {ts : List Token} {ls : List Lexeme} {l : Lexeme} {last next : Option Lexeme} {depth : Int} {c : Complaint}

namespace Lexeme

/-- The neighbours that a token needs: an operation has a token before it that is no operator, an operator has a token
after it that is no operation, and a function has an opening parenthesis after it. -/
def Placed (last next : Option Lexeme) : Lexeme → Prop
  | binary _ => (∃ before ∈ last, before.isOperator = false) ∧ ∃ after ∈ next, after.isBinary = false
  | negation => ∃ after ∈ next, after.isBinary = false
  | function _ => ∃ after ∈ next, after.isOpening = true
  | _ => True

theorem getD_map_true_eq_false_iff {o : Option Lexeme} {p : Lexeme → Bool} :
    (o.map p).getD true = false ↔ ∃ l ∈ o, p l = false := by
  cases o <;> simp

theorem getD_map_false_eq_true_iff {o : Option Lexeme} {p : Lexeme → Bool} :
    (o.map p).getD false = true ↔ ∃ l ∈ o, p l = true := by
  cases o <;> simp

/-- The flaws of a token are about its neighbours, but for a closing parenthesis below the depth of zero. -/
theorem flaws_eq_nil_iff :
    l.flaws last next depth = [] ↔ l.Placed last next ∧ (l.isClosing = true → 0 ≤ depth) := by
  cases l with
  | closing text => simp [flaws, Placed, isClosing]
  | function name => simp [flaws, Placed, isClosing, getD_map_false_eq_true_iff]
  | binary op => simp [flaws, Placed, isClosing, getD_map_true_eq_false_iff]
  | negation => simp [flaws, Placed, isClosing, getD_map_true_eq_false_iff]
  | _ => simp [flaws, Placed, isClosing]

/-- Only a closing parenthesis can lead below the depth of zero. -/
theorem nonneg_of_isClosing (hd : 0 ≤ depth) (h : l.isClosing = true → 0 ≤ depth + l.nesting) :
    0 ≤ depth + l.nesting := by
  cases l with
  | closing => exact h rfl
  | opening => exact hd.trans (Int.le_add_one le_rfl)
  | _ => exact hd.trans_eq (add_zero depth).symm

/-- No more parentheses are closed than are open: the first lexeme closes one that is open, if any, and what follows closes
no more than are open behind it. -/
theorem unopened_cons_le_iff (hd : 0 ≤ depth) : (unopened (l :: ls) : Int) ≤ depth ↔
    (l.isClosing = true → 0 ≤ depth + l.nesting) ∧ (unopened ls : Int) ≤ depth + l.nesting := by
  cases l <;> simp [unopened, unopenedWith, isClosing, nesting] <;> omega

/-- Every token of a list that stands behind `last` has the neighbours it needs. -/
def AllPlaced (last : Option Lexeme) (ls : List Lexeme) : Prop :=
  ∀ before l after, ls = before ++ l :: after → l.Placed (before.getLast?.or last) after.head?

theorem allPlaced_cons :
    AllPlaced last (l :: ls) ↔ l.Placed last ls.head? ∧ AllPlaced (some l) ls := by
  have shift (before : List Lexeme) : (l :: before).getLast?.or last = before.getLast?.or (some l) := by
    rw [List.getLast?_cons]
    cases before.getLast? <;> rfl
  constructor
  · intro h
    refine ⟨h [] l ls rfl, fun before m after split => ?_⟩
    rw [← shift]
    exact h (l :: before) m after (congrArg _ split)
  · rintro ⟨first, others⟩ before m after split
    cases before with
    | nil =>
        obtain ⟨rfl, rfl⟩ := List.cons.inj split
        exact first
    | cons first before =>
        obtain ⟨rfl, later⟩ := List.cons.inj split
        rw [shift]
        exact others before m after later

/-- The walk of the check finds no flaw where every token has its neighbours and no parenthesis is closed that is not
open. -/
theorem flawless_iff (hd : 0 ≤ depth) :
    Flawless last depth ls ↔ AllPlaced last ls ∧ (unopened ls : Int) ≤ depth := by
  induction ls generalizing last depth with
  | nil =>
      have none : AllPlaced last [] := fun before l after split => by simp at split
      exact ⟨fun _ => ⟨none, hd⟩, fun _ => trivial⟩
  | cons l ls ih =>
      rw [Flawless, flaws_eq_nil_iff, allPlaced_cons, unopened_cons_le_iff hd]
      constructor
      · rintro ⟨⟨first, matched⟩, later⟩
        obtain ⟨others, enough⟩ := (ih (nonneg_of_isClosing hd matched)).mp later
        exact ⟨⟨first, others⟩, matched, enough⟩
      · rintro ⟨⟨first, others⟩, matched, enough⟩
        exact ⟨⟨first, matched⟩, (ih (nonneg_of_isClosing hd matched)).mpr ⟨others, enough⟩⟩

end Lexeme

namespace Token

open Lexeme (Balanced parentheses)

theorem exists_of_mem_complaints (hc : c ∈ complaints last depth ts) : ∃ t ∈ ts, c.position = t.position := by
  induction ts generalizing last depth with
  | nil => cases hc
  | cons t ts ih =>
      obtain own | later := List.mem_append.mp hc
      · obtain ⟨flaw, _, rfl⟩ := List.mem_map.mp own
        exact ⟨t, List.mem_cons_self, rfl⟩
      · obtain ⟨u, hu, position⟩ := ih later
        exact ⟨u, List.mem_cons_of_mem t hu, position⟩

/-- A complaint has the position of a token, also that about an open parenthesis, which is one of the tokens. -/
theorem exists_of_mem_check (hc : c ∈ check ts) : ∃ t ∈ ts, c.position = t.position := by
  obtain own | matched := List.mem_append.mp hc
  · exact exists_of_mem_complaints own
  · obtain ⟨positive, found⟩ := List.mem_ite_nil_right.mp matched
    obtain rfl := List.mem_singleton.mp found
    cases hl : ts.getLast? with
    | none =>
        obtain rfl := List.getLast?_eq_none_iff.mp hl
        cases positive
    | some t => exact ⟨t, List.mem_of_getLast? hl, rfl⟩

/-- **What passes the check.** There is no complaint about a token list exactly if its parentheses are a balanced word and
each of its tokens has the neighbours it needs. A complaint has the position of a token of the list. -/
theorem check_eq_nil_iff_placed (ts : List Token) :
    (check ts = [] ↔ Balanced (parentheses (ts.map lexeme)) ∧
      ∀ before l after, ts.map lexeme = before ++ l :: after → l.Placed before.getLast? after.head?) ∧
    ∀ c ∈ check ts, ∃ t ∈ ts, c.position = t.position := by
  refine ⟨?_, fun c => exists_of_mem_check⟩
  rw [check_eq_nil_iff, Lexeme.flawless_iff le_rfl, Lexeme.balanced_iff]
  have least := Lexeme.neg_unopened_le_balance (ts.map lexeme)
  constructor
  · rintro ⟨⟨placed, enough⟩, closed⟩
    exact ⟨⟨by omega, by omega⟩, fun before l after split => by simpa using placed before l after split⟩
  · rintro ⟨⟨opened, closed⟩, placed⟩
    exact ⟨⟨fun before l after split => by simpa using placed before l after split, by omega⟩, closed.le⟩

end Token

end Surd
