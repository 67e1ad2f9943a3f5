import Surd.Proofs.Phrase.Check
import Surd.Proofs.Phrase.Postfix

/-!
# Reading derivations off tokens

In a derived token list any two neighbours fit together, and every parenthesis is closed at the depth at which it
was opened. These two conditions are local, and they are enough: `exists_phrase` reads a derivation off any token
list that meets them. It goes from left to right with the operands and operations so far as one sum; an operation
extends that sum at its own level, whatever the sum ends with.
-/

namespace Surd

namespace Lexeme

@[simp] theorem nesting_number (text : String) : (number text).nesting = 0 := rfl

@[simp] theorem nesting_variable (name : String) : («variable» name).nesting = 0 := rfl

def isClosing : Lexeme → Bool
  | closing _ => true
  | _ => false

def isComma : Lexeme → Bool
  | comma _ => true
  | _ => false

/-- Whether a token is the last one of an operand. -/
def endsOperand : Lexeme → Bool
  | number _ => true
  | .variable _ => true
  | closing _ => true
  | _ => false

/-- Whether a token is the first one of an operand. -/
def startsOperand : Lexeme → Bool
  | number _ => true
  | .variable _ => true
  | function _ => true
  | opening _ => true
  | negation => true
  | _ => false

/-- Whether a token fits after the token `last`, or at the start: behind an operand an operation or the end of the
group, behind a function its parenthesis, and an operand behind all else that an expression has. -/
def fitsAfter : Option Lexeme → Lexeme → Bool
  | none, l => l.startsOperand
  | some (function _), l => l.isOpening
  | some (comma _), _ => false
  | some last, l => if last.endsOperand then l.isBinary || l.isClosing else l.startsOperand

theorem fitsAfter_of_beforeNegation {last : Option Lexeme} (h : beforeNegation last = true)
    (l : Lexeme) : fitsAfter last l = l.startsOperand := by
  cases last with
  | none => rfl
  | some last =>
      cases last with
      | binary | negation | opening => rfl
      | _ => cases h

theorem fitsAfter_of_endsOperand {last : Lexeme} (h : last.endsOperand = true) (l : Lexeme) :
    fitsAfter (some last) l = (l.isBinary || l.isClosing) := by
  cases last with
  | number | «variable» | closing => rfl
  | _ => cases h

theorem endsOperand_of_beforeNegation {last : Option Lexeme} (h : beforeNegation last = true) :
    (last.map endsOperand).getD false = false := by
  cases last with
  | none => rfl
  | some last =>
      cases last with
      | binary | negation | opening => rfl
      | _ => cases h

/-- What a token needs besides its neighbours to stand in an expression: a numeral denotes a number and an operation
has a rank. -/
def Legible : Lexeme → Prop
  | number text => ∃ x, Double.ofText? text.toList = some x
  | binary op => ∃ r, op.rank? = some r
  | _ => True

end Lexeme

namespace Level

/-- An operation belongs to the level of its rank. -/
theorem mem_operations {l : Level} {op : BinaryOp} (h : op.rank? = some l.rank) :
    op ∈ l.operations := by
  revert h
  cases op with
  | other s => exact fun h => absurd h (by simp [BinaryOp.rank?])
  | _ => cases l <;> decide

theorem rank_tighter {l : Level} {n : Nat} (h : l.rank < n) (hn : n ≤ power.rank) :
    l.tighter.rank ≤ n := by
  cases l <;> simp only [rank, tighter] at h hn ⊢ <;> omega

theorem rank_le_power {op : BinaryOp} {n : Nat} (h : op.rank? = some n) : n ≤ power.rank := by
  cases op with
  | other => cases h
  | _ =>
      obtain rfl := Option.some.inj h
      decide

end Level

namespace Token

open Lexeme

/-- The tokens that follow `last` at a depth of parentheses end an expression: neighbours fit, and the depth comes
to zero without falling below it. -/
def Completes (last : Option Lexeme) (depth : Int) : List Token → Prop
  | [] => (last.map endsOperand).getD false = true ∧ depth = 0
  | t :: rest =>
    fitsAfter last t.lexeme = true ∧ 0 ≤ depth + t.lexeme.nesting ∧
      Completes (some t.lexeme) (depth + t.lexeme.nesting) rest

end Token

namespace Phrase

open Token Lexeme

variable {l : Level}

/-- A signed phrase as a phrase of a looser level. -/
theorem exists_lift (u : Phrase .signed .signed) (h : l ≠ .atom) :
    ∃ p : Phrase .signed l, p.tokens = u.tokens := by
  cases l with
  | signed => exact ⟨u, rfl⟩
  | power => exact ⟨plain (by decide) u, rfl⟩
  | product => exact ⟨plain (by decide) (plain (l := .power) (by decide) u), rfl⟩
  | sum =>
      exact ⟨plain (by decide) (plain (l := .product) (by decide)
        (plain (l := .power) (by decide) u)), rfl⟩
  | atom => exact absurd rfl h

/-- An operation and its right operand extend a phrase that is no tighter than the operation: where the phrase
itself is looser, they extend what it ends with. -/
theorem exists_extension (p : Phrase .signed l) {op : BinaryOp} {n : Nat} (hop : op.rank? = some n)
    (hl : l.rank ≤ n) (position : Nat) (u : Phrase .signed .signed) :
    ∃ q : Phrase .signed l, q.tokens = p.tokens ++ ⟨.binary op, position⟩ :: u.tokens := by
  have hn := Level.rank_le_power hop
  have here : ∀ {l : Level} (p : Phrase .signed l), l.rank = n →
      ∃ q : Phrase .signed l, q.tokens = p.tokens ++ ⟨.binary op, position⟩ :: u.tokens := by
    intro l p same
    have mem : op ∈ l.operations := Level.mem_operations (by rw [hop, same])
    have loose : l.tighter ≠ .atom := by
      intro h
      cases l with
      | signed | atom => exact absurd mem List.not_mem_nil
      | _ => cases h
    obtain ⟨right, hr⟩ := u.exists_lift loose
    exact ⟨binary p op mem position right, by rw [tokens, hr]⟩
  induction p with
  | number | name | group | call | negation =>
      simp only [Level.rank] at hl hn
      omega
  | plain loose inner ih =>
      obtain same | less := Nat.eq_or_lt_of_le hl
      · exact here (plain loose inner) same
      · obtain ⟨q, hq⟩ := ih (Level.rank_tighter less hn)
        exact ⟨plain loose q, hq⟩
  | binary left o mem position' right _ ih =>
      obtain same | less := Nat.eq_or_lt_of_le hl
      · exact here (binary left o mem position' right) same
      · obtain ⟨q, hq⟩ := ih (Level.rank_tighter less hn)
        refine ⟨binary left o mem position' q, ?_⟩
        rw [tokens, hq, tokens, List.append_assoc, List.cons_append]

/-! ## Descent -/

/-- Tokens that start with a sum, up to the end of its group. -/
def StartsWithSum (depth : Int) (ts : List Token) : Prop :=
  ∃ (p : Phrase .signed .sum) (last : Lexeme) (rest : List Token), ts = p.tokens ++ rest ∧
    last.endsOperand = true ∧ Completes (some last) depth rest ∧
    ∀ t ∈ rest.head?, t.lexeme.isClosing = true

/-- Tokens after which a signed phrase makes a sum. -/
def Extends (before : List Token) : Prop :=
  ∀ u : Phrase .signed .signed, ∃ p : Phrase .signed .sum, p.tokens = before ++ u.tokens

theorem extends_nil : Extends [] := fun u => u.exists_lift (by decide)

theorem Extends.negation {before : List Token} (h : Extends before) (position : Nat) :
    Extends (before ++ [⟨.negation, position⟩]) := by
  intro u
  obtain ⟨p, hp⟩ := h (.negation position u)
  exact ⟨p, by rw [hp, tokens, List.append_assoc, List.singleton_append]⟩

theorem extends_binary (p : Phrase .signed .sum) {op : BinaryOp} {n : Nat} (hop : op.rank? = some n)
    (position : Nat) : Extends (p.tokens ++ [⟨.binary op, position⟩]) := by
  intro u
  have loosest : Level.sum.rank ≤ n := by
    cases op with
    | other => cases hop
    | _ =>
        obtain rfl := Option.some.inj hop
        decide
  obtain ⟨q, hq⟩ := p.exists_extension hop loosest position u
  exact ⟨q, by rw [hq, List.append_assoc, List.singleton_append]⟩

/-- Where an operand may start, the tokens complete the sum before them up to the end of its group. -/
def Descends (ts : List Token) : Prop :=
  ∀ (last : Option Lexeme) (depth : Int) (before : List Token), beforeNegation last = true →
    0 ≤ depth → Completes last depth ts → (∀ t ∈ ts, t.lexeme.Legible) → Extends before →
    StartsWithSum depth (before ++ ts)

/-- Behind an operand the group ends, or an operation extends the sum by the operand that follows it. -/
theorem startsWithSum_tokens (p : Phrase .signed .sum) {last : Lexeme}
    (hlast : last.endsOperand = true) {depth : Int} {rest : List Token}
    (h : Completes (some last) depth rest) (legible : ∀ t ∈ rest, t.lexeme.Legible)
    (ih : ∀ ts : List Token, ts.length < rest.length → Descends ts) :
    StartsWithSum depth (p.tokens ++ rest) := by
  cases rest with
  | nil => exact ⟨p, last, [], rfl, hlast, h, by simp⟩
  | cons t rest =>
      obtain ⟨l, position⟩ := t
      obtain ⟨fits, hdepth, hrest⟩ := id h
      rw [fitsAfter_of_endsOperand hlast, Bool.or_eq_true] at fits
      obtain operation | closes := fits
      · obtain ⟨op, rfl⟩ : ∃ op, l = .binary op := by
          cases l with
          | binary op => exact ⟨op, rfl⟩
          | _ => cases operation
        rw [nesting_binary, Int.add_zero] at hdepth hrest
        obtain ⟨⟨n, hop⟩, later⟩ := List.forall_mem_cons.mp legible
        have next := ih rest (Nat.lt_succ_self _) (some (.binary op)) depth _ rfl hdepth hrest
          later (extends_binary p hop position)
        rwa [List.append_assoc, List.singleton_append] at next
      · exact ⟨p, last, _, rfl, hlast, h, by simpa using closes⟩

/-- A parenthesis at a depth that does not fall below zero is closed behind the sum that it opens. -/
theorem exists_group {ts : List Token} (hts : Descends ts) {depth : Int} (hd : 0 ≤ depth)
    (text : String) (h : Completes (some (.opening text)) (depth + 1) ts)
    (legible : ∀ t ∈ ts, t.lexeme.Legible) :
    ∃ (p : Phrase .signed .sum) (closing : String) (stop : Nat) (rest : List Token),
      ts = p.tokens ++ ⟨.closing closing, stop⟩ :: rest ∧
      Completes (some (.closing closing)) depth rest := by
  obtain ⟨p, last, rest, split, _, hrest, closes⟩ :=
    hts (some (.opening text)) (depth + 1) [] rfl (by omega) h legible extends_nil
  cases rest with
  | nil =>
      have zero : depth + 1 = 0 := hrest.2
      omega
  | cons t rest =>
      obtain ⟨l, stop⟩ := t
      obtain ⟨closing, rfl⟩ : ∃ text, l = .closing text := by
        cases l with
        | closing text => exact ⟨text, rfl⟩
        | _ => cases closes _ rfl
      refine ⟨p, closing, stop, rest, split, ?_⟩
      have inner := hrest.2.2
      rwa [nesting_closing, show depth + 1 + -1 = depth by omega] at inner

/-- An atom that has been read becomes part of the sum before it. -/
theorem startsWithSum_atom {before : List Token} (extended : Extends before)
    (a : Phrase .signed .atom) (last : Lexeme) (hlast : last.endsOperand = true) {depth : Int}
    {rest : List Token} (h : Completes (some last) depth rest)
    (legible : ∀ t ∈ rest, t.lexeme.Legible)
    (ih : ∀ ts : List Token, ts.length < rest.length → Descends ts) :
    StartsWithSum depth (before ++ (a.tokens ++ rest)) := by
  obtain ⟨p, hp⟩ := extended (plain (by decide) a)
  have sum := startsWithSum_tokens p hlast h legible ih
  rw [hp, List.append_assoc] at sum
  exact sum

/-- By the length of the tokens: an operand is read off their front, and what follows it is shorter. -/
theorem descends (ts : List Token) : Descends ts := by
  induction hn : ts.length using Nat.strongRecOn generalizing ts with
  | ind n ih =>
  subst hn
  have shorter : ∀ us : List Token, us.length < ts.length → Descends us := by
    intro us hlt
    exact ih us.length hlt us rfl
  intro last depth before hlast hd h legible extended
  cases ts with
  | nil => exact absurd h.1 (by rw [endsOperand_of_beforeNegation hlast]; exact Bool.false_ne_true)
  | cons t rest =>
      obtain ⟨l, position⟩ := t
      obtain ⟨starts, _, hrest⟩ := h
      rw [fitsAfter_of_beforeNegation hlast] at starts
      obtain ⟨first, later⟩ := List.forall_mem_cons.mp legible
      have below : ∀ us : List Token, us.length ≤ rest.length → Descends us := by
        intro us hle
        exact shorter us (Nat.lt_succ_of_le hle)
      cases l with
      | number text =>
          rw [nesting_number, Int.add_zero] at hrest
          obtain ⟨x, reads⟩ : ∃ x, Double.ofText? text.toList = some x := first
          exact startsWithSum_atom extended (.number text x position reads) (.number text) rfl hrest
            later fun us hlt => below us (Nat.le_of_lt hlt)
      | «variable» name =>
          rw [nesting_variable, Int.add_zero] at hrest
          exact startsWithSum_atom extended (.name name position) (.variable name) rfl hrest later
            fun us hlt => below us (Nat.le_of_lt hlt)
      | negation =>
          rw [nesting_negation, Int.add_zero] at hrest
          have next := below rest (Nat.le_refl _) (some .negation) depth _ rfl hd hrest later
            (extended.negation position)
          rwa [List.append_assoc, List.singleton_append] at next
      | opening text =>
          obtain ⟨p, closing, stop, others, rfl, completes⟩ :=
            exists_group (below rest (Nat.le_refl _)) hd text hrest later
          have sum := startsWithSum_atom extended (.group text position p closing stop)
            (.closing closing) rfl completes
            (fun t ht => later t (List.mem_append_right _ (List.mem_cons_of_mem _ ht)))
            fun us hlt => below us (by rw [List.length_append, List.length_cons]; omega)
          rwa [tokens, List.cons_append, List.append_assoc, List.singleton_append] at sum
      | function name =>
          rw [nesting_function, Int.add_zero] at hrest
          cases rest with
          | nil => cases hrest.1
          | cons t rest =>
              obtain ⟨l, start⟩ := t
              obtain ⟨fits, _, inside⟩ := hrest
              obtain ⟨text, rfl⟩ : ∃ text, l = .opening text := by
                cases l with
                | opening text => exact ⟨text, rfl⟩
                | _ => cases fits
              have within : ∀ t ∈ rest, t.lexeme.Legible :=
                fun t ht => later t (List.mem_cons_of_mem _ ht)
              obtain ⟨p, closing, stop, others, rfl, completes⟩ :=
                exists_group (below rest (Nat.le_succ _)) hd text inside within
              have sum := startsWithSum_atom extended (.call name position text start p closing stop)
                (.closing closing) rfl completes
                (fun t ht => within t (List.mem_append_right _ (List.mem_cons_of_mem _ ht)))
                fun us hlt => below us (by
                  rw [List.length_cons, List.length_append, List.length_cons]; omega)
              rwa [tokens, List.cons_append, List.cons_append, List.append_assoc,
                List.singleton_append] at sum
      | binary | closing | comma => cases starts

/-- Tokens that complete an expression from its start derive from the grammar. -/
theorem exists_phrase {ts : List Token} (h : Completes none 0 ts)
    (legible : ∀ t ∈ ts, t.lexeme.Legible) : ∃ p : Phrase .signed .sum, p.tokens = ts := by
  obtain ⟨p, last, rest, split, _, hrest, closes⟩ :=
    descends ts none 0 [] rfl (Int.le_refl 0) h legible extends_nil
  cases rest with
  | nil => exact ⟨p, by rw [List.append_nil] at split; exact split.symm⟩
  | cons t rest =>
      -- A closing parenthesis that no group takes would go below the depth of zero.
      obtain ⟨l, position⟩ := t
      have depth : 0 ≤ 0 + l.nesting := hrest.2.1
      cases l with
      | closing => rw [nesting_closing] at depth; omega
      | _ => cases closes _ rfl

end Phrase

end Surd
