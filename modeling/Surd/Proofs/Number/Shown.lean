import Surd.Proofs.Json.Number
import Surd.Proofs.Number.Finite
import Surd.Proofs.Tree.Numerals

/-!
# Shown numbers

A number is shown as a sign and the text of its size, and its opposite with the same text (`Number.exists_size`). That
text is a numeral, or a numeral with an exponent (`SizeText`).
-/

namespace Surd

-- Powers are those of core, also in a module that sees the instance of a larger library.
attribute [local instance (2000)] instPowNat

variable {cs ds : List Char} {x : Double} {a : Number} {n : Int}

/-- A numeral that starts and ends with a digit: digits, with a point at most between two of them. -/
inductive NumeralText : List Char → Prop
  | whole {ds : List Char} (digit : ∀ c ∈ ds, isDigit c = true) (filled : ds ≠ []) : NumeralText ds
  | point {ds fraction : List Char} (digit : ∀ c ∈ ds, isDigit c = true) (filled : ds ≠ [])
      (digit' : ∀ c ∈ fraction, isDigit c = true) (filled' : fraction ≠ []) : NumeralText (ds ++ '.' :: fraction)

/-- The text of a number without a sign: a numeral, or a numeral with an exponent. -/
inductive SizeText : List Char → Prop
  | plain {cs : List Char} (h : NumeralText cs) : SizeText cs
  | power {cs ds : List Char} (h : NumeralText cs) (negative : Bool) (digit : ∀ c ∈ ds, isDigit c = true)
      (filled : ds ≠ []) : SizeText (cs ++ 'e' :: (if negative then '-' else '+') :: ds)

/-! ## Numerals -/

theorem NumeralText.isNumeralChar (h : NumeralText cs) : ∀ c ∈ cs, isNumeralChar c = true := by
  have digits : ∀ {ds : List Char}, (∀ c ∈ ds, isDigit c = true) → ∀ c ∈ ds, Surd.isNumeralChar c = true :=
    fun digit c hc => by rw [Surd.isNumeralChar, digit c hc, Bool.true_or]
  cases h with
  | whole digit => exact digits digit
  | point digit _ digit' _ =>
      exact List.forall_mem_append.mpr ⟨digits digit, List.forall_mem_cons.mpr ⟨rfl, digits digit'⟩⟩

/-! ## Whole numbers -/

theorem writeInt_of_nonneg (h : 0 ≤ n) : (writeInt n).toList = digits n.natAbs := by
  simp [writeInt, not_lt.mpr h]

theorem writeInt_of_neg (h : n < 0) : (writeInt n).toList = '-' :: digits n.natAbs := by
  simp [writeInt, h]

theorem exists_writeInt (n : Int) :
    ∃ size, SizeText size ∧ (writeInt n).toList = Decimal.signText (decide (n < 0)) ++ size ∧
      (n < 0 → (writeInt (-n)).toList = size) := by
  refine ⟨digits n.natAbs, .plain (.whole isDigit_of_mem_digits (digits_ne_nil _)), ?_, fun hn => ?_⟩
  · obtain hn | hn := lt_or_ge n 0
    · simp [writeInt_of_neg, hn, Decimal.signText]
    · simp [writeInt_of_nonneg, hn, Decimal.signText]
  · rw [writeInt_of_nonneg (by omega), Int.natAbs_neg]

/-! ## Ten digits -/

namespace Decimal

theorem numeralText_positional (k : Nat) (e : Int) : NumeralText (positional k e) := by
  by_cases he : 0 ≤ e
  · simp only [positional, if_pos he]
    exact .whole isDigit_append_zeros (List.append_ne_nil_of_left_ne_nil (digits_ne_nil k) _)
  · obtain ⟨whole, fraction, layout, hw, hf, places, _⟩ := Json.exists_split_positional k (not_le.mp he)
    have filled : fraction ≠ [] := by
      rintro rfl
      exact he (by simpa using places.ge)
    exact layout ▸ .point hw.digit hw.ne_nil hf filled

theorem sizeText_exponentText (h : NumeralText cs) (e : Int) : SizeText (cs ++ exponentText e) := by
  obtain ⟨ds, filled, digit, _, written⟩ := exists_exponentText e
  rw [written]
  simpa using SizeText.power h (decide (e < 0)) digit filled

theorem sizeText_scientific (k : Nat) (e : Int) : SizeText (scientific k e) := by
  obtain ⟨d, more, cons, layout⟩ := exists_scientific k e
  have all : ∀ c ∈ d :: more, isDigit c = true := cons ▸ isDigit_of_mem_digits
  have first : ∀ c ∈ [d], isDigit c = true := List.forall_mem_singleton.mpr (all d List.mem_cons_self)
  rw [layout, ← List.append_assoc]
  refine sizeText_exponentText ?_ _
  cases more with
  | nil => exact .whole first (List.cons_ne_nil _ _)
  | cons d' more =>
      exact .point first (List.cons_ne_nil _ _) (fun c hc => all c (List.mem_cons_of_mem _ hc)) (List.cons_ne_nil _ _)

theorem normalize_withSign (d : Decimal) (s : Bool) :
    ({ d with negative := s } : Decimal).normalize = { d.normalize with negative := s } := by
  unfold normalize
  split <;> rfl

theorem significant_withSign (s t : Bool) (num den k : Nat) :
    { significant s num den k with negative := t } = significant t num den k := by
  unfold significant
  split
  · rfl
  · exact (normalize_withSign _ t).symm

/-- What is shown of a decimal is its sign and the text of its size. -/
theorem exists_write_display (d : Decimal) :
    ∃ size, SizeText size ∧
      ∀ s, (({ d with negative := s } : Decimal).write .display).toList = signText s ++ size := by
  refine ⟨if -4 ≤ d.normalize.leading ∧ d.normalize.leading < 10 then
    positional d.normalize.coefficient d.normalize.exponent
    else scientific d.normalize.coefficient d.normalize.exponent, ?_, fun s => ?_⟩
  · split
    · exact .plain (numeralText_positional _ _)
    · exact sizeText_scientific _ _
  · simp [write, normalize_withSign, Layout.display]
    rfl

end Decimal

namespace Double

theorem tenDigits_of_isFinite (hx : x.isFinite = true) :
    x.tenDigits = (Decimal.significant x.negative x.magnitude.1 x.magnitude.2 10).write .display := by
  cases x with
  | nan => cases hx
  | infinite => cases hx
  | finite => rfl

/-- Opposite doubles are shown with the same size and with different signs. -/
theorem exists_tenDigits (hx : x.isFinite = true) :
    ∃ size, SizeText size ∧ x.tenDigits.toList = Decimal.signText x.negative ++ size ∧
      x.neg.tenDigits.toList = Decimal.signText (!x.negative) ++ size := by
  obtain ⟨size, text, shown⟩ := Decimal.exists_write_display (.significant x.negative x.magnitude.1 x.magnitude.2 10)
  have opposite : x.neg.negative = !x.negative ∧ x.neg.magnitude = x.magnitude := by
    cases x with
    | nan => cases hx
    | infinite => cases hx
    | finite => exact ⟨rfl, rfl⟩
  refine ⟨size, text, ?_, ?_⟩
  · rw [tenDigits_of_isFinite hx, ← shown, Decimal.significant_withSign]
  · rw [tenDigits_of_isFinite ((isFinite_neg x).trans hx), opposite.1, opposite.2, ← shown,
      Decimal.significant_withSign]

end Double

namespace Number

theorem shown_of_toReal (hx : x.isFinite = true) (hn : x.toReal = n) (small : n.natAbs < 10 ^ 16) :
    (real x).shown = writeInt n := by
  simp only [shown, Double.truncate?_of_toReal hx hn]
  rw [if_pos ⟨Double.isWhole_of_toReal hx hn, small⟩]

theorem shown_of_not_small (h : ∀ n : Int, x.toReal = n → ¬n.natAbs < 10 ^ 16) : (real x).shown = x.tenDigits := by
  simp only [shown]
  split
  · rename_i n truncated
    rw [if_neg]
    rintro ⟨whole, small⟩
    obtain ⟨hx, k, hk⟩ := Double.exists_of_isWhole whole
    obtain rfl : k = n := Option.some.inj ((Double.truncate?_of_toReal hx hk).symm.trans truncated)
    exact h k hk small
  · rfl

/-- A bounded number is shown as a sign and the text of its size, and a negative one loses the sign with its
opposite. -/
theorem exists_size (h : a.Bounded) :
    ∃ size, SizeText size ∧ a.shown.toList = Decimal.signText a.isNegative ++ size ∧
      (a.isNegative = true → a.neg.shown.toList = size) := by
  cases a with
  | int n => simpa [shown] using exists_writeInt n
  | real x =>
      have hx : x.isFinite = true := h
      by_cases small : ∃ n : Int, x.toReal = n ∧ n.natAbs < 10 ^ 16
      · obtain ⟨n, hn, small⟩ := small
        have opposite : x.neg.toReal = (-n : Int) := by rw [Double.toReal_neg, hn, Int.cast_neg]
        have sign : (real x).isNegative = decide (n < 0) := by
          rw [Bool.eq_iff_iff, isNegative_real hx, hn, decide_eq_true_eq, Int.cast_lt_zero]
        rw [shown_of_toReal hx hn small, neg,
          shown_of_toReal ((Double.isFinite_neg x).trans hx) opposite ((Int.natAbs_neg n).trans_lt small), sign]
        simpa using exists_writeInt n
      · obtain ⟨size, text, shown_x, shown_neg⟩ := Double.exists_tenDigits hx
        have nonzero : x.toReal ≠ 0 := fun zero => small ⟨0, by simpa using zero, by decide⟩
        have sign : (real x).isNegative = x.negative := by
          rw [Bool.eq_iff_iff, isNegative_real hx, Double.negative_iff hx nonzero]
        refine ⟨size, text, ?_, fun negative => ?_⟩
        · rw [shown_of_not_small fun n hn small' => small ⟨n, hn, small'⟩, shown_x, sign]
        · rw [neg, shown_of_not_small, shown_neg, ← sign, negative]
          · rfl
          · intro n hn small'
            refine small ⟨-n, ?_, (Int.natAbs_neg n).trans_lt small'⟩
            rw [Int.cast_neg, ← hn, Double.toReal_neg, neg_neg]

end Number

end Surd
