import Surd.Parsed
import Surd.Proofs.Phrase.Descent
import Surd.Proofs.Phrase.Reading
import Surd.Proofs.Token.Move
import Surd.Proofs.Tree.Assembled
import Mathlib

/-!
# What the parser accepts

The check looks at an operator and its neighbours, and the trees are counted over the whole list. So some neighbours
are overlooked that no expression has: two operands side by side, a group that is empty or that starts or ends with
an operation. Such a list is refused when an operand is missing in the end, but another group may have one too many:
`x(*y)` is accepted as `x*y`.

The overlooked neighbours and the commas are all that can be wrong with an accepted text. Where it has none of them, its
tokens derive from the grammar.
-/

namespace Surd

namespace Lexeme

/-- Neighbours that no expression has although the check does not mind them: two operands, an operator or an opening
parenthesis at the end of its group, an operation at its start. -/
def overlooked (a b : Lexeme) : Bool :=
  a.endsOperand && b.startsOperand || (a.isOperator || a.isOpening) && b.isClosing ||
    a.isOpening && b.isBinary

/-- Neighbours that fit are none of them. -/
theorem overlooked_eq_false {a b : Lexeme} (h : fitsAfter (some a) b = true) :
    overlooked a b = false := by
  cases a <;> cases b <;>
    simp_all [fitsAfter, overlooked, endsOperand, startsOperand, isOperator, isOpening, isClosing, isBinary]

/-- Neighbours that the check finds no flaw in and does not overlook either fit. -/
theorem fitsAfter_of_flaws {a b : Lexeme} {last : Option Lexeme} {depth : Int}
    (h : a.flaws last (some b) depth = []) (ha : a.isComma = false) (hb : b.isComma = false)
    (seam : overlooked a b = false) : fitsAfter (some a) b = true := by
  cases a with
  | number | «variable» | closing =>
      cases b with
      | binary | closing => rfl
      | comma => cases hb
      | _ => cases seam
  | function name =>
      cases b with
      | opening => rfl
      | _ => cases h
  | binary op =>
      cases b with
      | binary => simp [flaws, isBinary] at h
      | closing => cases seam
      | comma => cases hb
      | _ => rfl
  | negation =>
      cases b with
      | binary => cases h
      | closing => cases seam
      | comma => cases hb
      | _ => rfl
  | opening text =>
      cases b with
      | binary | closing => cases seam
      | comma => cases hb
      | _ => rfl
  | comma => cases ha

/-- A token that the check finds no flaw in does not go below the depth of zero. -/
theorem nonneg_of_flaws {l : Lexeme} {last next : Option Lexeme} {depth : Int}
    (h : l.flaws last next (depth + l.nesting) = []) (hd : 0 ≤ depth) : 0 ≤ depth + l.nesting := by
  cases l with
  | closing text =>
      refine Int.not_lt.mp fun below => ?_
      rw [flaws, if_pos below] at h
      cases h
  | opening => rw [nesting_opening]; omega
  | _ => exact hd.trans_eq (Int.add_zero depth).symm

/-- The last token of an expression, as the check sees it, ends an operand. -/
theorem endsOperand_of_flaws {l : Lexeme} {last : Option Lexeme} {depth : Int}
    (h : l.flaws last none (depth + l.nesting) = []) (hd : 0 ≤ depth) (closed : depth + l.nesting ≤ 0)
    (hl : l.isComma = false) : l.endsOperand = true := by
  cases l with
  | number | «variable» | closing => rfl
  | function => cases h
  | binary => simp [flaws] at h
  | negation => cases h
  | opening => rw [nesting_opening] at closed; omega
  | comma => cases hl

/-- The first token of an expression, as the check sees it, starts an operand. -/
theorem startsOperand_of_flaws {l : Lexeme} {next : Option Lexeme}
    (h : l.flaws none next (0 + l.nesting) = []) (hl : l.isComma = false) :
    l.startsOperand = true := by
  cases l with
  | binary => simp [flaws] at h
  | closing => cases h
  | comma => cases hl
  | _ => rfl

end Lexeme

namespace Token

open Lexeme

/-- The tokens have no comma and no neighbours that the check overlooks. -/
structure Seamless (ts : List Token) : Prop where
  comma : ∀ t ∈ ts, t.lexeme.isComma = false
  seam : ts.IsChain fun a b => overlooked a.lexeme b.lexeme = false

theorem Seamless.tail {t : Token} {ts : List Token} (h : Seamless (t :: ts)) : Seamless ts :=
  ⟨fun u hu => h.comma u (List.mem_cons_of_mem t hu), h.seam.tail⟩

theorem complaints_cons_eq_nil {last : Option Lexeme} {depth : Int} {t : Token} {ts : List Token}
    (h : complaints last depth (t :: ts) = []) :
    t.lexeme.flaws last (ts.head?.map Token.lexeme) (depth + t.lexeme.nesting) = [] ∧
      complaints (some t.lexeme) (depth + t.lexeme.nesting) ts = [] := by
  rw [complaints, List.append_eq_nil_iff, List.map_eq_nil_iff] at h
  exact h

/-- Where the check complains about no token and no parenthesis is left open, seamless tokens complete the expression
that their first one starts. -/
theorem completes_of_complaints {t : Token} {ts : List Token} {last : Option Lexeme} {depth : Int}
    (h : complaints last depth (t :: ts) = []) (hd : 0 ≤ depth)
    (closed : (t :: ts).foldl (fun depth t => depth + t.lexeme.nesting) depth ≤ 0)
    (seamless : Seamless (t :: ts)) :
    Completes (some t.lexeme) (depth + t.lexeme.nesting) ts := by
  induction ts generalizing t last depth with
  | nil =>
      obtain ⟨flawless, _⟩ := complaints_cons_eq_nil h
      have inside := nonneg_of_flaws flawless hd
      exact ⟨endsOperand_of_flaws flawless hd closed (seamless.comma t List.mem_cons_self),
        Int.le_antisymm closed inside⟩
  | cons u ts ih =>
      obtain ⟨flawless, later⟩ := complaints_cons_eq_nil h
      have inside := nonneg_of_flaws flawless hd
      obtain ⟨seam, _⟩ := List.isChain_cons_cons.mp seamless.seam
      refine ⟨?_, nonneg_of_flaws (complaints_cons_eq_nil later).1 inside,
        ih later inside closed seamless.tail⟩
      exact fitsAfter_of_flaws flawless (seamless.comma t List.mem_cons_self)
        (seamless.comma u (List.mem_cons_of_mem t List.mem_cons_self)) seam

/-- Seamless tokens that pass the check complete an expression from its start. -/
theorem completes_of_check {ts : List Token} (h : check ts = []) (filled : ts ≠ [])
    (seamless : Seamless ts) : Completes none 0 ts := by
  obtain ⟨fine, closed⟩ := List.append_eq_nil_iff.mp h
  have balanced : balance ts ≤ 0 := by
    refine Int.not_lt.mp fun unclosed => ?_
    rw [if_pos unclosed] at closed
    cases closed
  cases ts with
  | nil => exact absurd rfl filled
  | cons t ts =>
      obtain ⟨flawless, _⟩ := complaints_cons_eq_nil fine
      exact ⟨startsOperand_of_flaws flawless (seamless.comma t List.mem_cons_self),
        nonneg_of_flaws flawless (Int.le_refl 0),
        completes_of_complaints fine (Int.le_refl 0) balanced seamless⟩

/-! ## Numerals and ranks -/

/-- The operations that are read have ranks. -/
theorem exists_rank_of_read {last : Option Lexeme} {c : Char} {rest : List Char} {op : BinaryOp}
    (h : read? last c rest = some (.binary op)) : ∃ r, op.rank? = some r := by
  rw [read?] at h
  split at h
  · cases h
  split at h
  · rw [ofName] at h
    split at h <;> cases h
  · unfold ofSymbol? at h
    split at h
    · cases h; exact ⟨_, rfl⟩
    · split at h <;> cases h
      exact ⟨_, rfl⟩
    · cases h; exact ⟨_, rfl⟩
    · cases h; exact ⟨_, rfl⟩
    · cases h; exact ⟨_, rfl⟩
    all_goals cases h

/-- The operations in a text have ranks. -/
theorem exists_rank_of_scan {position : Nat} {last : Option Lexeme} {cs : List Char} {ts : List Token}
    (h : scan position last cs = .ok ts) :
    ∀ t ∈ ts, ∀ op, t.lexeme = .binary op → ∃ r, op.rank? = some r := by
  fun_induction scan position last cs generalizing ts with
  | case1 =>
      obtain rfl := Except.ok.inj h
      simp
  | case2 _ _ _ _ _ ih => exact ih h
  | case3 => cases h
  | case4 position last c rest _ l hl size =>
      rename_i ih
      obtain ⟨tokens, htokens, h⟩ := exists_of_bind_eq_ok h
      obtain rfl := Except.ok.inj h
      intro t ht op hop
      obtain rfl | ht := List.mem_cons.mp ht
      · obtain rfl := hop
        exact exists_rank_of_read hl
      · exact ih htokens t ht op hop

end Token

namespace Tree

open Token

/-- Tokens that make a tree have numerals that denote numbers. -/
theorem Assembled.exists_number {stack : List Tree} {ts : List Token} {t : Tree} (h : Assembled stack ts t) :
    ∀ u ∈ ts, ∀ text, u.lexeme = .number text → ∃ x, Double.ofText? text.toList = some x := by
  induction h with
  | nil => simp
  | cons pushed _ ih =>
      refine List.forall_mem_cons.mpr ⟨fun text hl => ?_, ih⟩
      rw [hl] at pushed
      cases pushed with
      | number _ read => exact ⟨_, read⟩

end Tree

namespace Parsed

/-- A text is accepted when it has tokens that pass the check and make a tree. -/
theorem of_ofText_accepted {cs : List Char} {ts : List Token} {t : Tree}
    (h : ofText cs = .accepted ts t) :
    Token.ofText cs = .ok ts ∧ ts ≠ [] ∧ Token.check ts = [] ∧ Tree.ofTokens ts = .ok t := by
  rw [ofText] at h
  split at h
  · cases h
  · rename_i tokens read
    rw [ofTokens] at h
    split at h
    · cases h
    split at h
    · cases h
    split at h
    · rename_i filled _ checked _ _ built
      cases h
      refine ⟨read, ?_, checked, built⟩
      rintro rfl
      exact filled rfl
    · cases h

theorem ofText_eq_accepted {cs : List Char} {ts : List Token} {t : Tree} (read : Token.ofText cs = .ok ts)
    (filled : ts ≠ []) (checked : Token.check ts = []) (built : Tree.ofTokens ts = .ok t) :
    ofText cs = .accepted ts t := by
  have some : ts.isEmpty = false := List.isEmpty_eq_false_iff.mpr filled
  simp [ofText, read, ofTokens, some, checked, built]

end Parsed

namespace Phrase

open Token Lexeme

variable {negand l : Level}

theorem startsOperand_head (p : Phrase negand l) :
    ∀ t ∈ p.tokens.head?, t.lexeme.startsOperand = true := by
  induction p with
  | number | name | group | call | negation =>
      intro t ht
      obtain rfl := Option.some.inj ht
      rfl
  | plain _ _ ih => exact ih
  | binary left op _ position right ih _ =>
      obtain ⟨t, rest, h, _⟩ := left.tokens_eq_cons
      rw [h] at ih
      rw [tokens, h]
      exact ih

theorem endsOperand_getLast (p : Phrase negand l) :
    ∀ t ∈ p.tokens.getLast?, t.lexeme.endsOperand = true := by
  have closed : ∀ (ts : List Token) (closing : String) (stop : Nat),
      ∀ t ∈ (ts ++ [(⟨.closing closing, stop⟩ : Token)]).getLast?, t.lexeme.endsOperand = true := by
    intro ts closing stop t ht
    rw [List.getLast?_concat] at ht
    obtain rfl := Option.some.inj ht
    rfl
  induction p with
  | number | name =>
      intro t ht
      obtain rfl := Option.some.inj ht
      rfl
  | group opening start inner closing stop => exact closed (⟨.opening opening, start⟩ :: inner.tokens) _ _
  | call function position opening start argument closing stop =>
      exact closed (⟨.function function, position⟩ :: ⟨.opening opening, start⟩ :: argument.tokens) _ _
  | negation position operand ih =>
      obtain ⟨t, rest, h, _⟩ := operand.tokens_eq_cons
      rw [h] at ih
      rw [tokens, h, List.getLast?_cons_cons]
      exact ih
  | plain _ _ ih => exact ih
  | binary left op _ position right _ ih =>
      obtain ⟨t, rest, h, _⟩ := right.tokens_eq_cons
      rw [h] at ih
      rw [tokens, h, List.getLast?_append_cons, List.getLast?_cons_cons]
      exact ih

/-- In derived tokens neighbours fit. -/
theorem chain_tokens (p : Phrase negand l) :
    p.tokens.IsChain fun a b => fitsAfter (some a.lexeme) b.lexeme = true := by
  have grouped : ∀ (inner : Phrase negand .sum) (opening closing : String) (start stop : Nat),
      (inner.tokens.IsChain fun a b => fitsAfter (some a.lexeme) b.lexeme = true) →
      (⟨.opening opening, start⟩ :: (inner.tokens ++ [⟨.closing closing, stop⟩]) : List Token).IsChain
        fun a b => fitsAfter (some a.lexeme) b.lexeme = true := by
    intro inner opening closing start stop chain
    rw [List.isChain_cons, List.isChain_append]
    refine ⟨?_, chain, List.isChain_singleton _, ?_⟩
    · obtain ⟨t, rest, h, _⟩ := inner.tokens_eq_cons
      have first := inner.startsOperand_head
      rw [h] at first ⊢
      exact first
    · intro t ht u hu
      obtain rfl := Option.some.inj hu
      rw [fitsAfter_of_endsOperand (inner.endsOperand_getLast t ht)]
      rfl
  induction p with
  | number | name => exact List.isChain_singleton _
  | group opening start inner closing stop ih => exact grouped inner opening closing start stop ih
  | call function position opening start argument closing stop ih =>
      rw [tokens, List.isChain_cons]
      refine ⟨?_, grouped argument opening closing start stop ih⟩
      intro t ht
      obtain rfl := Option.some.inj ht
      rfl
  | negation position operand ih =>
      rw [tokens, List.isChain_cons]
      exact ⟨operand.startsOperand_head, ih⟩
  | plain _ _ ih => exact ih
  | binary left op _ position right ihl ihr =>
      rw [tokens, List.isChain_append, List.isChain_cons]
      refine ⟨ihl, ⟨right.startsOperand_head, ihr⟩, ?_⟩
      intro t ht u hu
      obtain rfl := Option.some.inj hu
      rw [fitsAfter_of_endsOperand (left.endsOperand_getLast t ht)]
      rfl

theorem comma_tokens (p : Phrase negand l) : ∀ t ∈ p.tokens, t.lexeme.isComma = false := by
  induction p with
  | number | name => simp [tokens, isComma]
  | group | call | negation | binary => simp_all [tokens, isComma, or_imp]
  | plain _ _ ih => exact ih

theorem seamless_tokens (p : Phrase negand l) : Seamless p.tokens :=
  ⟨p.comma_tokens, p.chain_tokens.imp fun _ _ h => overlooked_eq_false h⟩

/-- The tokens of an accepted text stand for something each. -/
theorem legible_of_accepted {cs : List Char} {ts : List Token} {t : Tree}
    (scanned : Token.ofText cs = .ok ts) (built : Tree.ofTokens ts = .ok t) : ∀ u ∈ ts, u.lexeme.Legible := by
  obtain ⟨out, arranged, assembled⟩ := Tree.ofTokens_eq_ok_iff.mp built
  intro u hu
  cases hl : u.lexeme with
  | number text =>
      exact assembled.exists_number u (mem_arrange arranged hu (by rw [hl]; rfl)) text hl
  | binary op => exact exists_rank_of_scan scanned u hu op hl
  | _ => trivial

/-- **What the parser accepts.** The tokens of an accepted text derive from the grammar exactly where they have no comma
and no neighbours that the check overlooks. The tree is then the reading of the derivation. -/
theorem accepted_derives_iff {cs : List Char} {ts : List Token} {t : Tree}
    (h : Parsed.ofText cs = .accepted ts t) :
    Token.ofText cs = .ok ts ∧
      ((∃ p : Phrase .signed .sum, p.tokens = ts) ↔ Seamless ts) ∧
      ∀ p : Phrase .signed .sum, p.tokens = ts → t = p.reading := by
  obtain ⟨scanned, filled, checked, built⟩ := Parsed.of_ofText_accepted h
  refine ⟨scanned, ⟨?_, ?_⟩, ?_⟩
  · rintro ⟨p, rfl⟩
    exact p.seamless_tokens
  · intro seamless
    exact exists_phrase (completes_of_check checked filled seamless)
      (legible_of_accepted scanned built)
  · rintro p rfl
    rw [ofTokens_tokens] at built
    split at built
    · exact (Except.ok.inj built).symm
    · cases built

/-- The tokens of `x(*y)`: a group that starts with an operation. -/
def looseProduct : List Token :=
  [⟨.variable "x", 0⟩, ⟨.opening "(", 1⟩, ⟨.binary .mul, 2⟩, ⟨.variable "y", 3⟩, ⟨.closing ")", 4⟩]

theorem not_seamless_looseProduct : ¬Seamless looseProduct := by
  intro h
  have inside := (List.isChain_cons_cons.mp h.seam).2
  exact absurd (List.isChain_cons_cons.mp inside).1 (by decide)

/-- The text `x(*y)` is accepted as `x*y`, and no derivation has its tokens. -/
theorem accepted_derives_iff_looseProduct :
    Parsed.ofText "x(*y)".toList =
      .accepted looseProduct (.binary .mul (.variable "x") (.variable "y")) ∧
    ¬∃ p : Phrase .signed .sum, p.tokens = looseProduct := by
  have accepted : Parsed.ofText "x(*y)".toList =
      .accepted looseProduct (.binary .mul (.variable "x") (.variable "y")) := by cbv
  obtain ⟨_, derives, _⟩ := accepted_derives_iff accepted
  exact ⟨accepted, mt derives.mp not_seamless_looseProduct⟩

end Phrase

end Surd
