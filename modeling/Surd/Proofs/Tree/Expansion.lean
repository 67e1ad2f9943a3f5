import Surd.Proofs.Store.Expansion
import Surd.Proofs.Token.Bare
import Surd.Proofs.Tree.Operands

/-!
# Trees with numbers in the place of names

Where tokens that pass the check have numerals, or negations of numerals in parentheses, put in the place of some
variables, the check still passes and the tree has these numbers for these variables (`ofTokens_expand`). A number with
an exponent is read as three operands and one operation, which leaves one operand too many, so tokens that made a tree
make none with it (`ofTokens_expand_ne_ok`).
-/

namespace Surd

variable {s : Store} {a : Number} {l : Lexeme} {ls : List Lexeme} {last last' : Option Lexeme} {depth : Int}

/-- The tree of a number as it is put into a text: the double that its text denotes, under a minus for a negative
number. -/
def Number.literal? (a : Number) : Option Tree :=
  if a.isNegative then (Double.ofText? a.neg.shown.toList).map fun x => .negate (.number x)
  else (Double.ofText? a.shown.toList).map .number

/-- A tree with numbers in the place of its bound variables. -/
def Tree.expand? (s : Store) : Tree → Option Tree
  | .number x => some (.number x)
  | .variable n =>
    match s.get? n with
    | some a => a.literal?
    | none => some (.variable n)
  | .negate t => (t.expand? s).map .negate
  | .binary op l r => (l.expand? s).bind fun l => (r.expand? s).map fun r => .binary op l r
  | .call f t => (t.expand? s).map (.call f)

/-- The number is shown without an exponent. -/
def Number.Positional (a : Number) : Prop := 'e' ∉ a.shown.toList

namespace Lexeme

/-- Every bound variable among the tokens is shown without an exponent. -/
def PositionalIn (s : Store) (l : Lexeme) : Prop := ∀ n a, l = .variable n → s.get? n = some a → a.Positional

/-- The tokens of a number in postfix order. -/
def settled (s : Store) : Lexeme → List Lexeme
  | .variable n =>
    match s.get? n with
    | some a =>
      if a.isNegative then [.number a.neg.shown, .negation] else [.number a.shown]
    | none => [.variable n]
  | l => [l]

end Lexeme

/-! ## Numbers without an exponent -/

theorem SizeText.numeralText {cs : List Char} (h : SizeText cs) (positional : 'e' ∉ cs) : NumeralText cs := by
  cases h with
  | plain h => exact h
  | power => exact absurd (by simp) positional

/-- The ways in which a bound variable that is shown without an exponent is expanded: one numeral, which denotes a
double, or the negation of one in parentheses. -/
inductive Expansion (s : Store) (n : String) : Prop
  | number {text : String} {x : Double} (read : Double.ofText? text.toList = some x)
      (tokens : (Lexeme.variable n).expand s = [.number text]) (settled : (Lexeme.variable n).settled s = [.number text])
      (tree : (Tree.variable n).expand? s = some (.number x))
  | negation {text : String} {x : Double} (read : Double.ofText? text.toList = some x)
      (tokens : (Lexeme.variable n).expand s = [.opening "(", .negation, .number text, .closing ")"])
      (settled : (Lexeme.variable n).settled s = [.number text, .negation])
      (tree : (Tree.variable n).expand? s = some (.negate (.number x)))

theorem expansion_of_get? (h : s.Plain) {n : String} (found : s.get? n = some a) (positional : a.Positional) :
    Expansion s n := by
  obtain ⟨size, text, shown, opposite⟩ := a.exists_size (h.bounded _ (Entries.mem_of_get? found))
  have numeral : NumeralText size := by
    refine text.numeralText fun there => positional ?_
    rw [shown]
    exact List.mem_append_right _ there
  have run : NumeralRun size [] := numeral.run (by simp [EndsNumeral])
  obtain ⟨x, read⟩ := run.exists_ofText?
  cases sign : a.isNegative with
  | true =>
      have same : a.neg.shown.toList = size := opposite sign
      have single : Lexeme.ofSize a.neg.shown.toList = [.number a.neg.shown] := by
        rw [ofSize_plain (same ▸ numeral), String.ofList_toList]
      refine .negation (same ▸ read) ?_ ?_ ?_
      · simp [Lexeme.expand, found, Lexeme.ofShown, sign, single]
      · simp [Lexeme.settled, found, sign]
      · simp [Tree.expand?, found, Number.literal?, sign, same, read]
  | false =>
      have same : a.shown.toList = size := by simpa [sign, Decimal.signText] using shown
      have single : Lexeme.ofSize a.shown.toList = [.number a.shown] := by
        rw [ofSize_plain (same ▸ numeral), String.ofList_toList]
      refine .number (same ▸ read) ?_ ?_ ?_
      · simp [Lexeme.expand, found, Lexeme.ofShown, sign, single]
      · simp [Lexeme.settled, found, sign]
      · simp [Tree.expand?, found, Number.literal?, sign, same, read]

/-- A token stays as it is, or it is a bound variable that is expanded. -/
theorem expand_cases (h : s.Plain) (positional : l.PositionalIn s) :
    (l.expand s = [l] ∧ l.settled s = [l] ∧ ∀ n, l = .variable n → s.get? n = none) ∨
      ∃ n, l = .variable n ∧ Expansion s n := by
  cases l with
  | «variable» n =>
      cases found : s.get? n with
      | none => exact .inl ⟨by simp [Lexeme.expand, found], by simp [Lexeme.settled, found], by simp [found]⟩
      | some a => exact .inr ⟨n, rfl, expansion_of_get? h found (positional n a rfl found)⟩
  | _ => exact .inl ⟨rfl, rfl, by simp⟩

/-! ## The check -/

namespace Lexeme

/-- The neighbours of a token look to the check as before. -/
theorem head?_expand (h : s.Plain) (positional : ∀ l ∈ ls, l.PositionalIn s) :
    (ls.head?.map isBinary).getD true = ((ls.flatMap (expand s)).head?.map isBinary).getD true ∧
      ((ls.head?.map isOpening).getD false = true →
        ((ls.flatMap (expand s)).head?.map isOpening).getD false = true) := by
  cases ls with
  | nil => simp
  | cons l ls =>
      rw [List.flatMap_cons]
      obtain ⟨same, _⟩ | ⟨n, rfl, expansion⟩ := expand_cases h (positional l List.mem_cons_self)
      · simp [same]
      · cases expansion with
        | number _ tokens => simp [tokens, isBinary, isOpening]
        | negation _ tokens => simp [tokens, isBinary, isOpening]

theorem flawless_expand (h : s.Plain) (positional : ∀ l ∈ ls, l.PositionalIn s)
    (before : (last.map isOperator).getD true = (last'.map isOperator).getD true) (hd : 0 ≤ depth)
    (flawless : Flawless last depth ls) : Flawless last' depth (ls.flatMap (expand s)) := by
  induction ls generalizing last last' depth with
  | nil => trivial
  | cons l ls ih =>
      obtain ⟨first, more⟩ := List.forall_mem_cons.mp positional
      obtain ⟨fine, later⟩ := flawless
      obtain ⟨after, opened⟩ := head?_expand h more
      rw [List.flatMap_cons]
      obtain ⟨same, _⟩ | ⟨n, rfl, expansion⟩ := expand_cases h first
      · rw [same]
        exact ⟨flaws_mono before.trans after.trans opened le_rfl fine, ih more rfl (nonneg_of_flaws fine hd) later⟩
      · have operand : Flawless (some (.variable n)) depth ls := by simpa [nesting] using later
        have rest {l' : Lexeme} (other : l'.isOperator = false) :
            Flawless (some l') depth (ls.flatMap (expand s)) := by
          have seen : ((some (.variable n)).map isOperator).getD true = ((some l').map isOperator).getD true :=
            other.symm
          exact ih more seen hd operand
        cases expansion with
        | number _ tokens => simpa [tokens, Flawless, flaws, nesting] using rest rfl
        | negation _ tokens => simpa [tokens, Flawless, flaws, nesting, isBinary, hd] using rest rfl

theorem balance_expand (h : s.Plain) (positional : ∀ l ∈ ls, l.PositionalIn s) :
    balance (ls.flatMap (expand s)) = balance ls := by
  induction ls with
  | nil => rfl
  | cons l ls ih =>
      obtain ⟨first, more⟩ := List.forall_mem_cons.mp positional
      have first : balance (l.expand s) = l.nesting := by
        obtain ⟨same, _⟩ | ⟨n, rfl, expansion⟩ := expand_cases h first
        · simp [same, balance]
        · cases expansion <;> simp [*, balance, nesting]
      rw [List.flatMap_cons, balance_append, balance_cons, first, ih more]

end Lexeme

/-! ## Postfix order -/

namespace Token

variable {stack ts out : List Token} {t : Token} {n : String}

/-- A token with the tokens of its number in its place if it is a bound variable. -/
def expand (s : Store) (t : Token) : List Token := (t.lexeme.expand s).map (⟨·, t.position⟩)

/-- The same in postfix order. -/
def settle (s : Store) (t : Token) : List Token := (t.lexeme.settled s).map (⟨·, t.position⟩)

theorem map_lexeme_expand (s : Store) (ts : List Token) :
    (ts.flatMap (expand s)).map lexeme = (ts.map lexeme).flatMap (Lexeme.expand s) := by
  simp [List.map_flatMap, List.flatMap_map, expand, Function.comp_def]

theorem flatMap_of_settle (fixed : ∀ t ∈ ts, t.settle s = [t]) : ts.flatMap (settle s) = ts := by
  induction ts with
  | nil => rfl
  | cons t ts ih =>
      obtain ⟨first, more⟩ := List.forall_mem_cons.mp fixed
      rw [List.flatMap_cons, first, ih more, List.singleton_append]

/-- A number in the place of a variable leaves at once, and its parentheses with it. -/
theorem arrange_expansion (expansion : Expansion s n) (operand : t.lexeme = .variable n) (free : Free stack)
    (rest : List Token) : arrange stack (t.expand s ++ rest) = (t.settle s ++ ·) <$> arrange stack rest := by
  obtain ⟨_, p⟩ := t
  obtain rfl := operand
  cases expansion with
  | number _ tokens settled => simp [expand, settle, tokens, settled, arrange]
  | @negation text _ _ tokens settled =>
      have inside : Yields 4 [⟨.negation, p⟩] := (yields_nil 4).append rfl
      have holds : Holds 4 (⟨.opening "(", p⟩ :: stack) := .inl rfl
      have closed : arrange (⟨.negation, p⟩ :: ⟨.opening "(", p⟩ :: stack) (⟨.closing ")", p⟩ :: rest) = _ :=
        arrange_closing rest inside "(" ")" p p
      rw [free.owner] at closed
      calc arrange stack (expand s ⟨.variable n, p⟩ ++ rest)
          _ = arrange (⟨.opening "(", p⟩ :: stack)
              (⟨.negation, p⟩ :: ⟨.number text, p⟩ :: ⟨.closing ")", p⟩ :: rest) := by simp only [expand, tokens]; rfl
          _ = arrange (⟨.negation, p⟩ :: ⟨.opening "(", p⟩ :: stack) (⟨.number text, p⟩ :: ⟨.closing ")", p⟩ :: rest) :=
              arrange_operator_of_holds _ rfl holds
          _ = (⟨.number text, p⟩ :: ·) <$> arrange (⟨.negation, p⟩ :: ⟨.opening "(", p⟩ :: stack)
              (⟨.closing ")", p⟩ :: rest) := rfl
          _ = (settle s ⟨.variable n, p⟩ ++ ·) <$> arrange stack rest := by rw [closed]; simp [settle, settled]

/-- The postfix order of a list with numbers in the place of variables is that of the list with the numbers in postfix
order. The invariant of the stack is that no bound variable waits on it and that a function is on top only when a
parenthesis follows, so that no function takes the parenthesis of a negated number for its own. -/
theorem arrange_expand (h : s.Plain) (positional : ∀ t ∈ ts, t.lexeme.PositionalIn s) (owned : Owned stack)
    (free : (ts.head?.map (·.lexeme.isOpening)).getD false = false → Free stack)
    (fixed : ∀ t ∈ stack, t.settle s = [t]) (flawless : Lexeme.Flawless last depth (ts.map lexeme))
    (arranged : arrange stack ts = .ok out) :
    arrange stack (ts.flatMap (expand s)) = .ok (out.flatMap (settle s)) := by
  induction ts generalizing stack last depth out with
  | nil =>
      obtain rfl := Except.ok.inj arranged
      rw [List.flatMap_nil, arrange, flatMap_of_settle fixed]
  | cons t ts ih =>
      obtain ⟨left, stack', out', moved, later, rfl⟩ := exists_of_arrange_cons arranged
      obtain ⟨first, more⟩ := List.forall_mem_cons.mp positional
      obtain ⟨fine, flawless⟩ := flawless
      have free : t.lexeme.isOpening = false → Free stack := by simpa using free
      obtain ⟨owned', free'⟩ := owned_move moved owned free
      rw [List.flatMap_cons, List.flatMap_append]
      obtain ⟨same, settled, _⟩ | ⟨n, operand, expansion⟩ := expand_cases h first
      · have kept : ∀ u ∈ left ++ stack', u.settle s = [u] := by
          intro u hu
          obtain rfl | hu := List.mem_cons.mp (mem_of_move moved u hu)
          · simp [settle, settled]
          · exact fixed u hu
        obtain ⟨fixed_left, fixed'⟩ := List.forall_mem_append.mp kept
        have next : (ts.head?.map (·.lexeme.isOpening)).getD false = false → Free stack' := by
          refine fun operand => free' ?_
          cases hl : t.lexeme with
          | function => simp [hl, Lexeme.flaws, Function.comp_def, operand] at fine
          | _ => rfl
        have single : t.expand s = [t] := by simp [expand, same]
        rw [single, List.singleton_append, arrange_cons, moved, ok_bind, ih more owned' next fixed' flawless later,
          flatMap_of_settle fixed_left]
        rfl
      · have at_once : move stack t = .ok ([t], stack) := by rw [move, operand]
        obtain ⟨rfl, rfl⟩ := Prod.mk.inj (Except.ok.inj (moved.symm.trans at_once))
        have free := free (by rw [operand]; rfl)
        rw [arrange_expansion expansion operand free, ih more owned (fun _ => free) fixed flawless later]
        simp

end Token

/-! ## The tree -/

namespace Tree

open Token (expand settle)

variable {stack stack' stack₂ : List Tree} {ts : List Token} {tree : Tree}

/-- The second stack has numbers in the place of the bound variables of the first. -/
def Expands (s : Store) : List Tree → List Tree → Prop := List.Forall₂ fun t t' => t.expand? s = some t'

/-- A token that is no bound variable does the same to both stacks. -/
theorem Pushed.exists_of_expands (pushed : Pushed l stack stack') (related : Expands s stack stack₂)
    (unbound : ∀ n, l = .variable n → s.get? n = none) :
    ∃ stack₂', Pushed l stack₂ stack₂' ∧ Expands s stack' stack₂' := by
  cases pushed with
  | number _ read => exact ⟨_, .number _ read, .cons rfl related⟩
  | «variable» => exact ⟨_, .variable _ _, .cons (by simp [expand?, unbound _ rfl]) related⟩
  | negation =>
      cases related with
      | cons first rest => exact ⟨_, .negation _ _, .cons (by simp [expand?, first]) rest⟩
  | binary =>
      cases related with
      | cons right rest =>
          cases rest with
          | cons left rest => exact ⟨_, .binary _ _ _ _, .cons (by simp [expand?, left, right]) rest⟩
  | function =>
      cases related with
      | cons first rest => exact ⟨_, .function _ _ _, .cons (by simp [expand?, first]) rest⟩

/-- Where tokens make a tree, the tokens with numbers in postfix order make the tree with these numbers. -/
theorem Assembled.exists_settle (h : s.Plain) (assembled : Assembled stack ts tree)
    (positional : ∀ t ∈ ts, t.lexeme.PositionalIn s) (related : Expands s stack stack₂) :
    ∃ tree', Assembled stack₂ (ts.flatMap (settle s)) tree' ∧ tree.expand? s = some tree' := by
  induction assembled generalizing stack₂ with
  | nil =>
      cases related with
      | cons first rest =>
          cases rest
          exact ⟨_, .nil _, first⟩
  | @cons t _ _ ts _ pushed _ ih =>
      obtain ⟨first, more⟩ := List.forall_mem_cons.mp positional
      rw [List.flatMap_cons]
      obtain ⟨_, settled, unbound⟩ | ⟨n, operand, expansion⟩ := expand_cases h first
      · obtain ⟨stack₂', pushed', related⟩ := pushed.exists_of_expands related unbound
        obtain ⟨tree', rest, expanded⟩ := ih more related
        have single : settle s t = [t] := by simp [settle, settled]
        exact ⟨tree', single ▸ .cons pushed' rest, expanded⟩
      · rw [operand] at pushed
        cases pushed
        cases expansion with
        | number read _ settled tree =>
            obtain ⟨tree', rest, expanded⟩ := ih more (.cons tree related)
            refine ⟨tree', ?_, expanded⟩
            simpa [settle, operand, settled] using .cons (.number _ read) rest
        | negation read _ settled tree =>
            obtain ⟨tree', rest, expanded⟩ := ih more (.cons tree related)
            refine ⟨tree', ?_, expanded⟩
            simpa [settle, operand, settled] using .cons (.number _ read) (.cons (.negation _ _) rest)

theorem check_expand (h : s.Plain) (positional : ∀ t ∈ ts, t.lexeme.PositionalIn s) (checked : Token.check ts = []) :
    Token.check (ts.flatMap (expand s)) = [] := by
  have positional : ∀ l ∈ ts.map Token.lexeme, l.PositionalIn s := by simpa using positional
  obtain ⟨flawless, closed⟩ := Token.check_eq_nil_iff.mp checked
  rw [Token.check_eq_nil_iff, Token.map_lexeme_expand, Lexeme.balance_expand h positional]
  exact ⟨Lexeme.flawless_expand h positional rfl le_rfl flawless, closed⟩

/-- Tokens that pass the check and have a tree have one with numbers in the place of their bound variables. -/
theorem ofTokens_expand (h : s.Plain) (positional : ∀ t ∈ ts, t.lexeme.PositionalIn s) (checked : Token.check ts = [])
    (built : ofTokens ts = .ok tree) :
    ∃ tree', ofTokens (ts.flatMap (expand s)) = .ok tree' ∧ tree.expand? s = some tree' := by
  obtain ⟨out, arranged, assembled⟩ := ofTokens_eq_ok_iff.mp built
  have rearranged := Token.arrange_expand h positional .nil (fun _ => nofun) (List.forall_mem_nil _)
    (Token.check_eq_nil_iff.mp checked).1 arranged
  have positional_out : ∀ t ∈ out, t.lexeme.PositionalIn s := fun t ht =>
    positional t ((Token.mem_of_mem_arrange arranged t ht).resolve_left List.not_mem_nil)
  obtain ⟨tree', assembled', expanded⟩ := assembled.exists_settle h positional_out .nil
  exact ⟨tree', ofTokens_eq_ok_iff.mpr ⟨_, rearranged, assembled'⟩, expanded⟩

end Tree

/-! ## Numbers with an exponent -/

namespace Lexeme

theorem total_ofSize {cs : List Char} (h : SizeText cs) : total (ofSize cs) = if 'e' ∈ cs then 2 else 1 := by
  cases h with
  | plain h =>
      have none : 'e' ∉ cs := fun there => by simpa using h.ne_exponent _ there
      rw [ofSize_plain h, if_neg none]
      rfl
  | @power cs ds h negative =>
      rw [ofSize_power h, if_pos (List.mem_append_right cs List.mem_cons_self)]
      rfl

theorem total_ofShown (h : a.Bounded) : total (ofShown a) = if 'e' ∈ a.shown.toList then 2 else 1 := by
  obtain ⟨size, text, shown, opposite⟩ := a.exists_size h
  cases sign : a.isNegative with
  | true => simp [ofShown, sign, opposite sign, shown, Decimal.signText, total_ofSize text, surplus]
  | false => simp [ofShown, sign, shown, Decimal.signText, total_ofSize text]

theorem surplus_le_total_expand (h : s.Plain) (l : Lexeme) : l.surplus ≤ total (l.expand s) := by
  cases l with
  | «variable» n =>
      cases found : s.get? n with
      | none => simp [expand, found]
      | some a =>
          rw [expand_of_get? found, total_ofShown (h.bounded _ (Entries.mem_of_get? found)), surplus]
          split <;> decide
  | _ => simp [expand]

theorem surplus_lt_total_expand (h : s.Plain) (power : ¬l.PositionalIn s) : l.surplus < total (l.expand s) := by
  simp only [PositionalIn, Number.Positional, not_forall, not_not] at power
  obtain ⟨n, a, rfl, found, power⟩ := power
  rw [expand_of_get? found, total_ofShown (h.bounded _ (Entries.mem_of_get? found)), if_pos power, surplus]
  decide

end Lexeme

/-- Tokens that have a tree have none any more when a number that is shown with an exponent takes the place of one of
them. -/
theorem Tree.ofTokens_expand_ne_ok {ts : List Token} {tree : Tree} (h : s.Plain) (built : ofTokens ts = .ok tree)
    (power : ∃ t ∈ ts, ¬t.lexeme.PositionalIn s) (tree' : Tree) : ofTokens (ts.flatMap (Token.expand s)) ≠ .ok tree' := by
  intro rebuilt
  have more : (ts.map fun t => t.lexeme.surplus).sum < (ts.map fun t => Lexeme.total (t.lexeme.expand s)).sum := by
    refine List.sum_lt_sum _ _ (fun t _ => Lexeme.surplus_le_total_expand h t.lexeme) ?_
    obtain ⟨t, ht, power⟩ := power
    exact ⟨t, ht, Lexeme.surplus_lt_total_expand h power⟩
  have before : (ts.map fun t => t.lexeme.surplus).sum = 1 := by
    simpa [Lexeme.total, Function.comp_def] using total_of_ofTokens built
  have after : (ts.map fun t => Lexeme.total (t.lexeme.expand s)).sum = 1 := by
    rw [← total_of_ofTokens rebuilt, Token.map_lexeme_expand, Lexeme.total_flatMap, List.map_map]
    rfl
  exact absurd (before.trans after.symm) more.ne

end Surd
