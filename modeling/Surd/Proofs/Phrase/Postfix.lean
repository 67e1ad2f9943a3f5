import Surd.Proofs.Phrase.Basic
import Surd.Proofs.Token.Stack

/-!
# The postfix order of a phrase

When the last token of a phrase has been read, some of its tokens are in the output and the others wait on the stack.
`emitted` and `pending` are the two parts; together they are the postfix order of the phrase. What waits yields to
every operator of the phrase's own level, so a left operand is complete when the operation after it arrives; and the
tokens below the phrase stay where they are, as long as they hold the weakest operator of the phrase.

Of two negations side by side the first leaves as soon as the second arrives, before their operand is read.
-/

namespace Surd

namespace Level

/-- How strongly the operations of a level bind. An atom binds more strongly than all of them. -/
def rank : Level → Nat
  | sum => 1
  | product => 2
  | power => 3
  | signed => 4
  | atom => 5

theorem rank_le_tighter (l : Level) : l.rank ≤ l.tighter.rank := by
  cases l <;> decide

theorem rank_operation {l : Level} {op : BinaryOp} (h : op ∈ l.operations) :
    op.rank? = some l.rank := by
  cases l <;> simp only [operations, List.mem_cons, List.not_mem_nil, or_false] at h
  · obtain rfl | rfl := h <;> rfl
  · obtain rfl | rfl := h <;> rfl
  · rw [h]; rfl

/-- A right operand binds more strongly than the operation before it. -/
theorem rank_lt_tighter {l : Level} {op : BinaryOp} (h : op ∈ l.operations) :
    l.rank < l.tighter.rank := by
  cases l with
  | atom => exact absurd h List.not_mem_nil
  | _ => decide

end Level

namespace Phrase

open Token

variable {l : Level}

/-- Whether a signed phrase starts with a negation. -/
def isNegated : {l : Level} → Phrase .signed l → Bool
  | _, negation _ _ => true
  | _, _ => false

/-- The tokens that wait on the stack when a phrase has been read, from the top. -/
def pending : {l : Level} → Phrase .signed l → List Token
  | _, number _ _ _ _ => []
  | _, name _ _ => []
  | _, group _ _ _ _ _ => []
  | _, call _ _ _ _ _ _ _ => []
  | _, negation position operand =>
    if operand.isNegated then operand.pending else operand.pending ++ [⟨.negation, position⟩]
  | _, plain _ inner => inner.pending
  | _, binary _ op _ position right => right.pending ++ [⟨.binary op, position⟩]

/-- The tokens that are in the output when a phrase has been read. -/
def emitted : {l : Level} → Phrase .signed l → List Token
  | _, number text _ position _ => [⟨.number text, position⟩]
  | _, name text position => [⟨.variable text, position⟩]
  | _, group _ _ inner _ _ => inner.emitted ++ inner.pending
  | _, call function position _ _ argument _ _ =>
    argument.emitted ++ argument.pending ++ [⟨.function function, position⟩]
  | _, negation position operand =>
    if operand.isNegated then ⟨.negation, position⟩ :: operand.emitted else operand.emitted
  | _, plain _ inner => inner.emitted
  | _, binary left _ _ _ right => left.emitted ++ left.pending ++ right.emitted

/-- The rank of the weakest operator of a phrase outside parentheses; that of an atom where there is none. -/
def weakest : {l : Level} → Phrase .signed l → Nat
  | _, number _ _ _ _ => Level.atom.rank
  | _, name _ _ => Level.atom.rank
  | _, group _ _ _ _ _ => Level.atom.rank
  | _, call _ _ _ _ _ _ _ => Level.atom.rank
  | _, negation _ _ => Level.signed.rank
  | _, plain _ inner => inner.weakest
  | l, binary _ _ _ _ _ => l.rank

theorem rank_le_weakest (p : Phrase .signed l) : l.rank ≤ p.weakest := by
  induction p with
  | plain _ inner ih => exact Nat.le_trans (Level.rank_le_tighter _) ih
  | _ => exact Nat.le_refl _

/-- An operand of a negation that is not negated itself has no operator outside parentheses. -/
theorem weakest_of_not_negated (p : Phrase .signed .signed) (h : p.isNegated = false) :
    Level.signed.rank < p.weakest := by
  cases p with
  | negation => cases h
  | plain _ inner => exact Nat.lt_of_lt_of_le (by decide) inner.rank_le_weakest
  | binary _ _ mem => exact absurd mem List.not_mem_nil

/-- What waits when a phrase has been read leaves before every operation of its level. -/
theorem yields_pending (p : Phrase .signed l) : Yields l.rank p.pending := by
  induction p with
  | number | name | group | call => exact yields_nil _
  | negation position operand ih =>
      rw [pending]
      split
      · exact ih
      · exact ih.append rfl
  | plain _ inner ih => exact ih.mono (Level.rank_le_tighter _)
  | binary _ _ mem _ right _ ih =>
      exact (ih.mono (Level.rank_le_tighter _)).append (Level.rank_operation mem)

/-- A waiting negation leaves as soon as another one arrives. -/
private theorem arrange_negated (p : Phrase .signed .signed) (h : p.isNegated = true)
    {stack : List Token} (hs : Holds Level.signed.rank stack) (position : Nat) (rest : List Token) :
    arrange (⟨.negation, position⟩ :: stack) (p.tokens ++ rest) =
      (⟨.negation, position⟩ :: ·) <$> arrange stack (p.tokens ++ rest) := by
  cases p with
  | plain => cases h
  | binary => cases h
  | negation second operand =>
      have above : Yields Level.signed.rank [⟨.negation, position⟩] :=
        (yields_nil _).append rfl
      rw [tokens, List.cons_append, arrange_operator_of_holds _ rfl hs]
      exact arrange_operator _ rfl above hs

/-- Reading the tokens of a phrase over a stack that holds puts the emitted tokens into the output and leaves the
pending ones on top of that stack. -/
theorem arrange_tokens (p : Phrase .signed l) {stack : List Token} (rest : List Token)
    (hs : Holds p.weakest stack) :
    arrange stack (p.tokens ++ rest) = (p.emitted ++ ·) <$> arrange (p.pending ++ stack) rest := by
  induction p generalizing stack rest with
  | number | name => rfl
  | group opening start inner closing stop ih =>
      have inside : Holds inner.weakest (⟨.opening opening, start⟩ :: stack) := .inl rfl
      have opened : arrange stack (⟨.opening opening, start⟩ :: (inner.tokens ++
          ⟨.closing closing, stop⟩ :: rest)) =
          arrange (⟨.opening opening, start⟩ :: stack) (inner.tokens ++
            ⟨.closing closing, stop⟩ :: rest) := rfl
      rw [tokens, List.cons_append, List.append_assoc, List.singleton_append, opened, ih _ inside,
        arrange_closing _ inner.yields_pending, owner_of_holds hs, Functor.map_map]
      simp only [emitted, pending, List.append_assoc, List.nil_append]
  | call function position opening start argument closing stop ih =>
      have inside : Holds argument.weakest
          (⟨.opening opening, start⟩ :: ⟨.function function, position⟩ :: stack) := .inl rfl
      have opened : arrange stack (⟨.function function, position⟩ :: ⟨.opening opening, start⟩ ::
          (argument.tokens ++ ⟨.closing closing, stop⟩ :: rest)) =
          arrange (⟨.opening opening, start⟩ :: ⟨.function function, position⟩ :: stack)
            (argument.tokens ++ ⟨.closing closing, stop⟩ :: rest) := rfl
      rw [tokens, List.cons_append, List.cons_append, List.append_assoc, List.singleton_append,
        opened, ih _ inside, arrange_closing _ argument.yields_pending, Functor.map_map]
      simp only [emitted, pending, owner, List.append_assoc, List.nil_append]
  | negation position operand ih =>
      rw [tokens, List.cons_append, arrange_operator_of_holds _ rfl hs]
      cases h : operand.isNegated with
      | true =>
          have ho : Holds operand.weakest stack := hs.mono operand.rank_le_weakest
          rw [arrange_negated operand h hs, ih rest ho, Functor.map_map]
          simp only [emitted, pending, h, if_true, List.cons_append]
      | false =>
          have ho : Holds operand.weakest (⟨.negation, position⟩ :: stack) :=
            .inr ⟨_, operand.weakest_of_not_negated h, rfl⟩
          rw [ih rest ho]
          simp only [emitted, pending, h, Bool.false_eq_true, if_false, List.append_assoc,
            List.singleton_append]
  | plain _ inner ih => exact ih rest hs
  | @binary l left op mem position right ihl ihr =>
      have hl : Holds left.weakest stack := hs.mono left.rank_le_weakest
      have hr : Holds right.weakest (⟨.binary op, position⟩ :: stack) :=
        .inr ⟨l.rank, Nat.lt_of_lt_of_le (Level.rank_lt_tighter mem) right.rank_le_weakest,
          Level.rank_operation mem⟩
      rw [tokens, List.append_assoc, List.cons_append, ihl _ hl,
        arrange_operator (t := ⟨.binary op, position⟩) _ (Level.rank_operation mem)
          left.yields_pending hs, ihr _ hr, Functor.map_map, Functor.map_map]
      simp only [emitted, pending, List.append_assoc, List.singleton_append]

/-- The postfix order of derived tokens. -/
theorem toPostfix_tokens (p : Phrase .signed l) :
    toPostfix p.tokens = .ok (p.emitted ++ p.pending) := by
  have h : arrange [] (p.tokens ++ []) = (p.emitted ++ ·) <$> arrange (p.pending ++ []) [] :=
    p.arrange_tokens [] trivial
  rw [List.append_nil, List.append_nil] at h
  rw [toPostfix, h]
  rfl

end Phrase

end Surd
