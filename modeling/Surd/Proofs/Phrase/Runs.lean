import Surd.Proofs.Phrase.Reading
import Mathlib.Data.List.Chain
import Mathlib.Data.List.TakeWhile

/-!
# Runs of negations

A run is two or more negations side by side. The check lets runs pass, and the grammar with `Level.signed` derives
them. The parser returns the tree of a derivation exactly where its tokens have no run: of every run all negations but
the last leave the stack before the operand is read. A run in front of the first operand is refused for a missing
operand; after an operand the lost negations go to what stands to the left, and a wrong tree comes out.
-/

namespace Surd

namespace Token

/-- No two negations stand side by side. -/
def RunFree (ts : List Token) : Prop :=
  ts.IsChain fun a b => ¬(a.lexeme = .negation ∧ b.lexeme = .negation)

instance (ts : List Token) : Decidable (RunFree ts) :=
  inferInstanceAs (Decidable (ts.IsChain _))

/-- Whether a token is an operand on its own. -/
def isLeaf (t : Token) : Bool :=
  match t.lexeme with
  | .number _ => true
  | .variable _ => true
  | _ => false

/-- The tokens before the first numeral or variable. -/
def lead (ts : List Token) : List Token := ts.takeWhile (!·.isLeaf)

variable {t : Token} {ts us : List Token}

theorem runFree_cons (h : t.lexeme ≠ .negation) : RunFree (t :: ts) ↔ RunFree ts := by
  rw [RunFree, List.isChain_cons]
  constructor
  · rintro ⟨_, free⟩
    exact free
  · intro free
    exact ⟨fun _ _ both => h both.1, free⟩

/-- A token that is no negation parts two lists. -/
theorem runFree_append_cons (h : t.lexeme ≠ .negation) :
    RunFree (ts ++ t :: us) ↔ RunFree ts ∧ RunFree us := by
  rw [RunFree, List.isChain_append]
  constructor
  · rintro ⟨left, right, _⟩
    exact ⟨left, (runFree_cons h).mp right⟩
  · rintro ⟨left, right⟩
    refine ⟨left, (runFree_cons h).mpr right, ?_⟩
    intro a _ b hb both
    obtain rfl : t = b := by simpa only [List.head?_cons, Option.mem_some_iff] using hb
    exact h both.2

theorem runFree_negation {position : Nat} :
    RunFree (⟨.negation, position⟩ :: ts) ↔
      ts.head?.map Token.lexeme ≠ some .negation ∧ RunFree ts := by
  rw [RunFree, List.isChain_cons]
  refine and_congr_left fun _ => ?_
  cases ts with
  | nil => simp
  | cons u _ => simp

/-- What follows the first leaf does not count. -/
theorem lead_append (h : ∃ u ∈ ts, u.isLeaf = true) : lead (ts ++ us) = lead ts := by
  obtain ⟨u, hu, leaf⟩ := h
  have stops : (ts.takeWhile (!·.isLeaf)).length ≠ ts.length := by
    intro full
    have whole : ts.takeWhile (!·.isLeaf) = ts :=
      (List.takeWhile_sublist _).eq_of_length full
    have before := List.mem_takeWhile_imp (whole.symm ▸ hu)
    simp [leaf] at before
  rw [lead, List.takeWhile_append, if_neg stops]
  rfl

end Token

namespace Tree

/-- How many negations a tree has. -/
def negations : Tree → Nat
  | number _ => 0
  | .variable _ => 0
  | negate t => t.negations + 1
  | binary _ l r => l.negations + r.negations
  | call _ t => t.negations

theorem negations_iterate (n : Nat) (t : Tree) : (negate^[n] t).negations = n + t.negations := by
  induction n generalizing t with
  | zero => exact (Nat.zero_add _).symm
  | succ n ih =>
      rw [Function.iterate_succ_apply, ih, negations]
      omega

end Tree

namespace Phrase

open Surd.Token Surd.Tree

variable {l : Level}

theorem exists_leaf (p : Phrase .signed l) : ∃ t ∈ p.tokens, t.isLeaf = true := by
  induction p with
  | number | name => exact ⟨_, List.mem_singleton_self _, rfl⟩
  | group _ _ inner _ _ ih =>
      obtain ⟨t, ht, leaf⟩ := ih
      exact ⟨t, List.mem_cons_of_mem _ (List.mem_append_left _ ht), leaf⟩
  | call _ _ _ _ argument _ _ ih =>
      obtain ⟨t, ht, leaf⟩ := ih
      exact ⟨t, List.mem_cons_of_mem _ (List.mem_cons_of_mem _ (List.mem_append_left _ ht)), leaf⟩
  | negation _ operand ih =>
      obtain ⟨t, ht, leaf⟩ := ih
      exact ⟨t, List.mem_cons_of_mem _ ht, leaf⟩
  | plain _ inner ih => exact ih
  | binary left _ _ _ _ ih _ =>
      obtain ⟨t, ht, leaf⟩ := ih
      exact ⟨t, List.mem_append_left _ ht, leaf⟩

/-- A signed phrase starts with a negation token just when it is a negation. -/
theorem head_eq_negation_iff (p : Phrase .signed .signed) :
    p.tokens.head?.map Token.lexeme = some .negation ↔ p.isNegated = true := by
  cases p with
  | negation => exact ⟨fun _ => rfl, fun _ => rfl⟩
  | binary _ _ mem => exact absurd mem List.not_mem_nil
  | plain _ inner =>
      cases inner with
      | number | name | group | call => simp [tokens, isNegated]
      | plain loose => exact absurd rfl loose
      | binary _ _ mem => exact absurd mem List.not_mem_nil

/-- A negation makes a run with its operand just when that starts with one. -/
theorem runFree_negation_tokens (p : Phrase .signed .signed) (position : Nat) :
    RunFree (⟨.negation, position⟩ :: p.tokens) ↔ p.isNegated = false ∧ RunFree p.tokens := by
  rw [runFree_negation, Ne, head_eq_negation_iff, Bool.not_eq_true]

/-- The same before the first leaf, which the operand has. -/
theorem runFree_negation_lead (p : Phrase .signed .signed) (position : Nat) :
    RunFree (⟨.negation, position⟩ :: lead p.tokens) ↔
      p.isNegated = false ∧ RunFree (lead p.tokens) := by
  have same : (lead p.tokens).head?.map Token.lexeme = some .negation ↔
      p.tokens.head?.map Token.lexeme = some .negation := by
    obtain ⟨t, rest, h, _⟩ := p.tokens_eq_cons
    rw [h, lead, List.takeWhile_cons]
    cases hl : t.lexeme <;> simp [isLeaf, hl]
  rw [runFree_negation, Ne, same, head_eq_negation_iff, Bool.not_eq_true]

/-- A phrase loses negations exactly where a run stands in front of its first operand. -/
theorem strays_eq_zero_iff (p : Phrase .signed l) : p.strays = 0 ↔ RunFree (lead p.tokens) := by
  induction p with
  | number | name => exact ⟨fun _ => List.isChain_nil, fun _ => rfl⟩
  | group opening start inner closing stop ih =>
      have h : lead (group opening start inner closing stop).tokens =
          ⟨.opening opening, start⟩ :: lead inner.tokens :=
        congrArg (_ :: ·) (lead_append inner.exists_leaf)
      rw [h, runFree_cons (by simp)]
      exact ih
  | call function position opening start argument closing stop ih =>
      have h : lead (call function position opening start argument closing stop).tokens =
          ⟨.function function, position⟩ :: ⟨.opening opening, start⟩ :: lead argument.tokens :=
        congrArg (_ :: _ :: ·) (lead_append argument.exists_leaf)
      rw [h, runFree_cons (by simp), runFree_cons (by simp)]
      exact ih
  | negation position operand ih =>
      have h : lead (negation position operand).tokens =
          ⟨.negation, position⟩ :: lead operand.tokens := rfl
      rw [h, runFree_negation_lead, strays]
      cases operand.isNegated with
      | true => simp
      | false => simpa using ih
  | plain _ inner ih => exact ih
  | binary left _ _ _ _ ih _ =>
      rw [tokens, lead_append left.exists_leaf]
      exact ih

/-- No negation disappears: each one stands in the reading or is lost. -/
theorem negations_reading (p : Phrase .signed l) :
    p.reading.negations + p.strays = p.tree.negations := by
  induction p with
  | number | name => rfl
  | group _ _ _ _ _ ih => exact ih
  | call _ _ _ _ _ _ _ ih => exact ih
  | negation _ operand ih =>
      rw [reading, strays, tree, negations]
      split
      · omega
      · rw [negations]
        omega
  | plain _ _ ih => exact ih
  | binary left _ _ _ right ihl ihr =>
      rw [reading, strays, tree, negations, negations, negations_iterate]
      omega

/-- A phrase is read as it was derived exactly where it has no run. Where the right operand of an operation loses
negations, its left operand has more of them than it was derived with. -/
theorem reading_eq_tree_iff (p : Phrase .signed l) :
    p.strays = 0 ∧ p.reading = p.tree ↔ RunFree p.tokens := by
  induction p with
  | number | name => exact ⟨fun _ => List.isChain_singleton _, fun _ => ⟨rfl, rfl⟩⟩
  | group opening start inner closing stop ih =>
      rw [tokens, runFree_cons (by simp), runFree_append_cons (by simp), ← ih]
      exact ⟨fun h => ⟨h, List.isChain_nil⟩, And.left⟩
  | call function position opening start argument closing stop ih =>
      rw [tokens, runFree_cons (by simp), runFree_cons (by simp), runFree_append_cons (by simp),
        ← ih]
      constructor
      · rintro ⟨kept, same⟩
        exact ⟨⟨kept, by injection same⟩, List.isChain_nil⟩
      · rintro ⟨⟨kept, same⟩, _⟩
        exact ⟨kept, congrArg _ same⟩
  | negation position operand ih =>
      rw [tokens, runFree_negation_tokens, ← ih, strays, reading, tree]
      cases operand.isNegated with
      | true => simp
      | false => simp
  | plain _ inner ih => exact ih
  | binary left op mem position right ihl ihr =>
      rw [tokens, runFree_append_cons (by simp), ← ihl, ← ihr, strays, reading, tree]
      constructor
      · rintro ⟨kept, same⟩
        injection same with _ hl hr
        have count := congrArg negations hl
        rw [negations_iterate, ← left.negations_reading] at count
        have none_lost : right.strays = 0 := by omega
        rw [none_lost] at hl
        exact ⟨⟨kept, hl⟩, none_lost, hr⟩
      · rintro ⟨⟨kept, hl⟩, none_lost, hr⟩
        rw [none_lost, hl, hr]
        exact ⟨kept, rfl⟩

/-- **Runs of negations.** The check accepts every derivation. The parser returns the tree of the derivation exactly
where no two negations stand side by side; it refuses a run in front of the first operand, and with any other run it
returns the reading, in which the lost negations stand on the operand to the left of the run. -/
theorem parse_runs (p : Phrase .signed .sum) :
    check p.tokens = [] ∧
      (Tree.ofTokens p.tokens = .ok p.tree ↔ RunFree p.tokens) ∧
      Tree.ofTokens p.tokens =
        if RunFree (lead p.tokens) then .ok p.reading else refuse .missingNegand := by
  have outcome := p.ofTokens_tokens
  simp only [p.strays_eq_zero_iff] at outcome
  refine ⟨p.check_tokens, ?_, outcome⟩
  rw [outcome, ← p.reading_eq_tree_iff, p.strays_eq_zero_iff]
  split
  · rename_i kept
    constructor
    · intro h
      exact ⟨kept, Except.ok.inj h⟩
    · rintro ⟨_, same⟩
      exact congrArg Except.ok same
  · rename_i lost
    constructor
    · intro h
      cases h
    · rintro ⟨kept, _⟩
      exact absurd kept lost

/-- Read as `-x - -y`. -/
example : Tree.ofTokens [⟨.variable "x", 0⟩, ⟨.binary .sub, 1⟩, ⟨.negation, 2⟩, ⟨.negation, 3⟩,
    ⟨.variable "y", 4⟩] =
    .ok (.binary .sub (.negate (.variable "x")) (.negate (.variable "y"))) := rfl

end Phrase

end Surd
