import Surd.Proofs.Phrase.Acceptance
import Surd.Proofs.Decimal.Digits
import Surd.Proofs.Double.Finite

/-!
# Numerals are numbers

The numerals of a text are digits with a point at most, so none of them denotes "not a number", and the tree of an
accepted text has no leaf but those (`numeric_of_ofText`).
-/

namespace Surd

/-! ## Texts of digits -/

/-- A character of a numeral. -/
def isNumeralChar (c : Char) : Bool := isDigit c || c == '.'

theorem isNumeralChar_iff {c : Char} : isNumeralChar c = true ↔ c = '.' ∨ 48 ≤ c.toNat ∧ c.toNat ≤ 57 := by
  rw [isNumeralChar, Bool.or_eq_true, beq_iff_eq, or_comm, isDigit_eq, Char.isDigit, Bool.and_eq_true,
    decide_eq_true_eq, decide_eq_true_eq]
  exact Iff.rfl

theorem Decimal.toDouble_ne_nan (d : Decimal) : d.toDouble ≠ .nan := by
  rw [toDouble]
  split_ifs
  · exact Double.noConfusion
  · exact Double.noConfusion
  · exact Double.noConfusion
  · exact Double.nearest_ne_nan _ _ _

/-- A character of a number that can have a sign and an exponent. -/
def isDecimalChar (c : Char) : Bool := isNumeralChar c || ['e', 'E', '+', '-'].contains c

theorem isDecimalChar_of_isNumeralChar {c : Char} (h : isNumeralChar c = true) : isDecimalChar c = true := by
  rw [isDecimalChar, h, Bool.true_or]

theorem isDecimalChar_iff {c : Char} :
    isDecimalChar c = true ↔ isNumeralChar c = true ∨ c = 'e' ∨ c = 'E' ∨ c = '+' ∨ c = '-' := by
  simp [isDecimalChar]

theorem bounds_of_isDecimalChar {c : Char} (h : isDecimalChar c = true) :
    c = 'e' ∨ c = 'E' ∨ 43 ≤ c.toNat ∧ c.toNat ≤ 57 := by
  obtain numeral | rfl | rfl | rfl | rfl := isDecimalChar_iff.mp h
  · obtain rfl | ⟨least, most⟩ := isNumeralChar_iff.mp numeral
    · exact .inr (.inr (by decide))
    · exact .inr (.inr ⟨by omega, most⟩)
  all_goals decide

theorem mapM_numeralChar? {cs : List Char} (h : ∀ c ∈ cs, isDecimalChar c = true) :
    cs.mapM numeralChar? = some cs := by
  induction cs with
  | nil => rfl
  | cons c cs ih =>
      obtain ⟨first, rest⟩ := List.forall_mem_cons.mp h
      have ascii : c.toNat < 128 := by
        obtain rfl | rfl | bounds := bounds_of_isDecimalChar first
        · decide
        · decide
        · omega
      rw [List.mapM_cons, numeralChar?, if_pos ascii, ih rest]
      rfl

theorem toLower_ne_of_decimalChar {c : Char} (h : isDecimalChar c = true) : c.toLower ≠ 'n' := by
  obtain rfl | rfl | ⟨-, most⟩ := bounds_of_isDecimalChar h
  · decide
  · decide
  · have small : c.toLower = c := by
      rw [Char.toLower, dif_neg]
      rintro ⟨lower, -⟩
      have lower : 65 ≤ c.toNat := UInt32.le_iff_toNat_le.mp lower
      omega
    rw [small]
    rintro rfl
    exact absurd most (by decide)

theorem ungrouped?_of_decimal {cs : List Char} (h : ∀ c ∈ cs, isDecimalChar c = true) (afterDigit : Bool) :
    ungrouped? afterDigit cs = some cs := by
  induction cs generalizing afterDigit with
  | nil => rfl
  | cons c cs ih =>
      obtain ⟨first, rest⟩ := List.forall_mem_cons.mp h
      have other : c ≠ '_' := by
        rintro rfl
        exact absurd first (by decide)
      rw [ungrouped?, if_neg other, ih rest]
      rfl

theorem isNumberBlank_of_decimalChar {c : Char} (h : isDecimalChar c = true) : isNumberBlank c = false := by
  obtain rfl | rfl | ⟨least, -⟩ := bounds_of_isDecimalChar h
  · decide
  · decide
  · rw [isNumberBlank, Bool.or_eq_false_iff]
    constructor
    · rw [beq_eq_false_iff_ne]
      rintro rfl
      exact absurd least (by decide)
    · refine Bool.and_eq_false_imp.mpr fun _ => decide_eq_false fun most => ?_
      have most : c.toNat ≤ 13 := UInt32.le_iff_toNat_le.mp most
      omega

theorem dropWhile_of_decimal {cs : List Char} (h : ∀ c ∈ cs, isDecimalChar c = true) :
    cs.dropWhile isNumberBlank = cs := by
  cases cs with
  | nil => rfl
  | cons c cs => simp [isNumberBlank_of_decimalChar (h c List.mem_cons_self)]

theorem plainNumeral?_of_decimal {cs : List Char} (h : ∀ c ∈ cs, isDecimalChar c = true) :
    plainNumeral? cs = some cs := by
  have reversed : cs.reverse.dropWhile isNumberBlank = cs.reverse :=
    dropWhile_of_decimal fun c hc => h c (List.mem_reverse.mp hc)
  simp [plainNumeral?, mapM_numeralChar? h, ungrouped?_of_decimal h, dropWhile_of_decimal h, reversed]

theorem mem_of_mem_signRun {cs : List Char} {c : Char} (h : c ∈ (signRun cs).2) : c ∈ cs := by
  unfold signRun at h
  split at h
  · exact List.mem_cons_of_mem _ h
  · exact List.mem_cons_of_mem _ h
  · exact h

/-- Digits and points have no sign in front. -/
theorem signRun_of_numeral {cs : List Char} (h : ∀ c ∈ cs, isNumeralChar c = true) : signRun cs = (false, cs) := by
  unfold signRun
  split
  · cases h _ List.mem_cons_self
  · cases h _ List.mem_cons_self
  · rfl

/-- A text without blanks and letters other than those of an exponent is read as a decimal, if it is read at all. -/
theorem Double.ofText?_of_decimal {cs : List Char} (h : ∀ c ∈ cs, isDecimalChar c = true) :
    ofText? cs = (Decimal.ofText? (signRun cs).1 (signRun cs).2).map Decimal.toDouble := by
  have unnamed : ∀ name : String, 'n' ∈ name.toList → String.ofList ((signRun cs).2.map Char.toLower) ≠ name := by
    rintro _ letter rfl
    rw [String.toList_ofList] at letter
    obtain ⟨c, hc, lower⟩ := List.mem_map.mp letter
    exact toLower_ne_of_decimalChar (h c (mem_of_mem_signRun hc)) lower
  simp only [ofText?, plainNumeral?_of_decimal h, Option.bind_eq_bind, Option.bind_some]
  rw [if_neg (not_or.mpr ⟨unnamed _ (by decide), unnamed _ (by decide)⟩), if_neg (unnamed _ (by decide))]
  cases Decimal.ofText? (signRun cs).1 (signRun cs).2 <;> rfl

/-- Digits and points are read as a decimal, if they are read at all. -/
theorem Double.ofText?_of_numeral {cs : List Char} (h : ∀ c ∈ cs, isNumeralChar c = true) :
    ofText? cs = (Decimal.ofText? false cs).map Decimal.toDouble := by
  rw [ofText?_of_decimal fun c hc => isDecimalChar_of_isNumeralChar (h c hc), signRun_of_numeral h]

/-- A text of digits and points does not denote "not a number". -/
theorem Double.ofText?_ne_nan {cs : List Char} (h : ∀ c ∈ cs, isNumeralChar c = true) : ofText? cs ≠ some nan := by
  rw [ofText?_of_numeral h]
  intro found
  obtain ⟨d, _, double⟩ := Option.map_eq_some_iff.mp found
  exact Decimal.toDouble_ne_nan d double

/-! ## Tokens -/

/-- The text of a numeral is one of digits and points. -/
def Lexeme.Numeral : Lexeme → Prop
  | number text => ∀ c ∈ text.toList, isNumeralChar c = true
  | _ => True

theorem isNumeralChar_of_mem_numeral (cs : List Char) : ∀ c ∈ numeral cs, isNumeralChar c = true := by
  have digits : ∀ ds : List Char, ∀ c ∈ ds.takeWhile isDigit, isNumeralChar c = true := by
    intro ds c hc
    rw [isNumeralChar, List.mem_takeWhile_imp hc, Bool.true_or]
  rw [numeral]
  split
  · intro c hc
    obtain hc | hc := List.mem_append.mp hc
    · exact digits _ c hc
    · obtain rfl | hc := List.mem_cons.mp hc
      · rfl
      · exact digits _ c hc
  · exact digits _

namespace Token

theorem numeral_of_read? {last : Option Lexeme} {c : Char} {rest : List Char} {l : Lexeme}
    (h : Lexeme.read? last c rest = some l) : l.Numeral := by
  rw [Lexeme.read?] at h
  split_ifs at h
  · obtain rfl := Option.some.inj h
    show ∀ c ∈ (String.ofList _).toList, _
    rw [String.toList_ofList]
    exact isNumeralChar_of_mem_numeral _
  · obtain rfl := Option.some.inj h
    rw [Lexeme.ofName]
    split <;> trivial
  · unfold Lexeme.ofSymbol? at h
    split at h
    iterate 8
      · obtain rfl := Option.some.inj h
        first
        | trivial
        | split <;> trivial
    · cases h

theorem numeral_of_scan {position : Nat} {last : Option Lexeme} {cs : List Char} {ts : List Token}
    (h : scan position last cs = .ok ts) : ∀ t ∈ ts, t.lexeme.Numeral := by
  fun_induction scan position last cs generalizing ts with
  | case1 =>
      obtain rfl := Except.ok.inj h
      exact List.forall_mem_nil _
  | case2 _ _ _ _ _ ih => exact ih h
  | case3 => cases h
  | case4 position last c rest _ l read size =>
      rename_i ih
      obtain ⟨tokens, htokens, h⟩ := exists_of_bind_eq_ok h
      obtain rfl := Except.ok.inj h
      exact List.forall_mem_cons.mpr ⟨numeral_of_read? read, ih htokens⟩

end Token

namespace Tree

/-- No numeral of the tree is "not a number". -/
def Numeric : Tree → Prop
  | number x => x ≠ .nan
  | .variable _ => True
  | negate t => t.Numeric
  | binary _ l r => l.Numeric ∧ r.Numeric
  | call _ t => t.Numeric

theorem Pushed.numeric {stack stack' : List Tree} {l : Lexeme} (h : Pushed l stack stack') (numeral : l.Numeral)
    (before : ∀ t ∈ stack, t.Numeric) : ∀ t ∈ stack', t.Numeric := by
  cases h with
  | number _ read =>
      refine List.forall_mem_cons.mpr ⟨?_, before⟩
      rintro rfl
      exact Double.ofText?_ne_nan numeral read
  | «variable» => exact List.forall_mem_cons.mpr ⟨trivial, before⟩
  | negation | function =>
      obtain ⟨operand, rest⟩ := List.forall_mem_cons.mp before
      exact List.forall_mem_cons.mpr ⟨operand, rest⟩
  | binary =>
      obtain ⟨right, before⟩ := List.forall_mem_cons.mp before
      obtain ⟨left, rest⟩ := List.forall_mem_cons.mp before
      exact List.forall_mem_cons.mpr ⟨⟨left, right⟩, rest⟩

theorem Assembled.numeric {stack : List Tree} {ts : List Token} {t : Tree} (h : Assembled stack ts t)
    (numerals : ∀ u ∈ ts, u.lexeme.Numeral) (before : ∀ t ∈ stack, t.Numeric) : t.Numeric := by
  induction h with
  | nil t => exact before t (List.mem_singleton_self t)
  | cons pushed _ ih =>
      obtain ⟨first, rest⟩ := List.forall_mem_cons.mp numerals
      exact ih rest (pushed.numeric first before)

end Tree

/-- The tree of an accepted text is numeric. -/
theorem Parsed.numeric_of_ofText {cs : List Char} {ts : List Token} {t : Tree} (h : ofText cs = .accepted ts t) :
    t.Numeric := by
  obtain ⟨scanned, _, _, built⟩ := of_ofText_accepted h
  obtain ⟨out, arranged, assembled⟩ := Tree.ofTokens_eq_ok_iff.mp built
  apply assembled.numeric _ (List.forall_mem_nil _)
  intro u hu
  exact Token.numeral_of_scan scanned u ((Token.mem_of_mem_arrange arranged u hu).resolve_left List.not_mem_nil)

end Surd
