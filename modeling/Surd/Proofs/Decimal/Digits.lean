import Surd.Decimal.Layout
import Surd.Decimal.Reading
import Mathlib.Data.List.Basic
import Mathlib.Tactic.IntervalCases

/-!
# Written digits

The digits of a natural number are read back as that number, zeros in front do not count, and zeros behind multiply by
powers of ten.
-/

namespace Surd

theorem isDigit_eq (c : Char) : isDigit c = c.isDigit := by
  rw [Bool.eq_iff_iff]
  simp only [isDigit, Char.isDigit, Bool.and_eq_true, decide_eq_true_eq]
  exact Iff.rfl

theorem isDigit_of_mem_digits {n : Nat} : ∀ c ∈ digits n, isDigit c = true := by
  intro c h
  rw [isDigit_eq]
  exact Nat.isDigit_of_mem_toDigits (by decide) le_rfl h

theorem digits_ne_nil (n : Nat) : digits n ≠ [] := Nat.toDigits_ne_nil

theorem digits_of_ten_le {n : Nat} (h : 10 ≤ n) : digits n = digits (n / 10) ++ [(n % 10).digitChar] := by
  rw [digits, Nat.toDigits_eq_if (by decide), if_neg (by omega)]
  rfl

theorem length_digits_of_lt {n : Nat} (h : n < 10) : (digits n).length = 1 := by
  rw [digits, Nat.toDigits_of_lt_base h, List.length_singleton]

/-- Only the digits of zero start with a zero. -/
theorem head?_digits {n : Nat} (h : n ≠ 0) : (digits n).head? ≠ some '0' := by
  induction n using Nat.strongRecOn with
  | ind n ih =>
      obtain small | large := Nat.lt_or_ge n 10
      · rw [digits, Nat.toDigits_of_lt_base small]
        interval_cases n <;> simp_all
      · rw [digits_of_ten_le large, List.head?_append_of_ne_nil _ (digits_ne_nil _)]
        exact ih (n / 10) (by omega) (by omega)

@[simp] theorem digitsValue_digits (n : Nat) : digitsValue (digits n) = n :=
  Nat.ofDigitChars_toDigits (by decide) le_rfl

theorem digitsValue_append_singleton (ds : List Char) (c : Char) :
    digitsValue (ds ++ [c]) = 10 * digitsValue ds + digitValue c := by
  rw [digitsValue, List.foldl_append]
  rfl

theorem digitsValue_zeros_append (k : Nat) (ds : List Char) :
    digitsValue (List.replicate k '0' ++ ds) = digitsValue ds := by
  induction k with
  | zero => rfl
  | succ k ih => exact ih

theorem digitsValue_append_zeros (ds : List Char) (k : Nat) :
    digitsValue (ds ++ List.replicate k '0') = digitsValue ds * 10 ^ k := by
  induction k with
  | zero => simp
  | succ k ih =>
      rw [List.replicate_succ', ← List.append_assoc, digitsValue_append_singleton, ih, Nat.pow_succ]
      exact (Nat.mul_comm 10 _).trans (Nat.mul_assoc _ _ _)

theorem isDigit_zeros_append {k : Nat} {ds : List Char} (h : ∀ c ∈ ds, isDigit c = true) :
    ∀ c ∈ List.replicate k '0' ++ ds, isDigit c = true := by
  intro c hc
  obtain zero | hc := List.mem_append.mp hc
  · rw [List.eq_of_mem_replicate zero]
    rfl
  · exact h c hc

theorem isDigit_append_zeros {n k : Nat} : ∀ c ∈ digits n ++ List.replicate k '0', isDigit c = true := by
  intro c hc
  obtain hc | zero := List.mem_append.mp hc
  · exact isDigit_of_mem_digits c hc
  · rw [List.eq_of_mem_replicate zero]
    rfl

/-- A run of digits ends where no digit follows. -/
theorem digitRun_append {ds rest : List Char} (h : ∀ c ∈ ds, isDigit c = true)
    (ends : ∀ c ∈ rest.head?, isDigit c = false) : digitRun (ds ++ rest) = (ds, rest) := by
  have stop : rest.takeWhile isDigit = [] ∧ rest.dropWhile isDigit = rest := by
    cases rest with
    | nil => exact ⟨rfl, rfl⟩
    | cons c cs =>
        have other := Bool.not_eq_true _ ▸ ends c rfl
        exact ⟨List.takeWhile_cons_of_neg other, List.dropWhile_cons_of_neg other⟩
  rw [digitRun, List.takeWhile_append_of_pos h, List.dropWhile_append_of_pos h, stop.1, stop.2, List.append_nil]

namespace Decimal

/-! ## Exponents -/

/-- An exponent is written as a letter, a sign and the digits of its size. -/
theorem exists_exponentText (e : Int) :
    ∃ ds, ds ≠ [] ∧ (∀ c ∈ ds, isDigit c = true) ∧ digitsValue ds = e.natAbs ∧
      exponentText e = 'e' :: (if e < 0 then '-' else '+') :: ds := by
  refine ⟨_, ?_, ?_, ?_, rfl⟩ <;> split
  · exact List.cons_ne_nil _ _
  · exact digits_ne_nil _
  · exact isDigit_zeros_append (k := 1) isDigit_of_mem_digits
  · exact isDigit_of_mem_digits
  · exact (digitsValue_zeros_append 1 _).trans (digitsValue_digits _)
  · exact digitsValue_digits _

/-- The letter, the sign and the digits of a written exponent are taken off one after the other. -/
theorem exponentText_runs (e : Int) (rest : List Char) (ends : ∀ c ∈ rest.head?, isDigit c = false) :
    ∃ tail negative cs d ds, exponentText e ++ rest = 'e' :: tail ∧ signRun tail = (negative, cs) ∧
      digitRun cs = (d :: ds, rest) ∧
      (if negative then -(digitsValue (d :: ds) : Int) else digitsValue (d :: ds)) = e := by
  obtain ⟨ds, filled, digit, value, written⟩ := exists_exponentText e
  obtain ⟨d, ds, rfl⟩ := List.exists_cons_of_ne_nil filled
  have sign : signRun ((if e < 0 then '-' else '+') :: (d :: ds ++ rest)) = (decide (e < 0), d :: ds ++ rest) := by
    by_cases negative : e < 0 <;> simp [negative, signRun]
  refine ⟨_, _, _, d, ds, by rw [written]; rfl, sign, digitRun_append digit ends, ?_⟩
  rw [value]
  by_cases negative : e < 0
  · rw [if_pos (decide_eq_true negative), Int.ofNat_natAbs_of_nonpos negative.le, neg_neg]
  · rw [if_neg (by simpa using negative), Int.natAbs_of_nonneg (not_lt.mp negative)]

/-- A number with an exponent is written with its first digit in front of the point, if there are more. -/
theorem exists_scientific (k : Nat) (e : Int) :
    ∃ d more, digits k = d :: more ∧
      scientific k e = [d] ++ ((if more = [] then [] else '.' :: more) ++ exponentText (more.length + e)) := by
  obtain ⟨d, more, cons⟩ := List.exists_cons_of_ne_nil (digits_ne_nil k)
  have leading : ((d :: more).length : Int) - 1 + e = more.length + e := by
    rw [List.length_cons]
    omega
  refine ⟨d, more, cons, ?_⟩
  rw [scientific, cons, leading, List.append_assoc]
  cases more <;> simp

/-! ## Reading digits -/

variable {s : Bool} {ds fraction tail : List Char} {e : Int}

/-- Digits without a point are read as a whole number, moved by the exponent that follows them. -/
theorem ofText?_whole (digit : ∀ c ∈ ds, isDigit c = true) (filled : ds ≠ [])
    (ends : ∀ c ∈ tail.head?, isDigit c = false ∧ c ≠ '.') (power : exponentPart? tail = some e) :
    ofText? s (ds ++ tail) = some ⟨s, digitsValue ds, e⟩ := by
  have run : digitRun (ds ++ tail) = (ds, tail) := digitRun_append digit fun c hc => (ends c hc).1
  have point : ∀ rest, tail ≠ '.' :: rest := by
    rintro rest rfl
    exact (ends '.' rfl).2 rfl
  rw [ofText?, run]
  dsimp only
  split
  · exact absurd rfl (point _)
  · simp [filled, power]

/-- Digits with a point are read as all of them, moved back by those behind the point. -/
theorem ofText?_point (digit : ∀ c ∈ ds, isDigit c = true) (digit' : ∀ c ∈ fraction, isDigit c = true)
    (filled : ds ≠ [] ∨ fraction ≠ []) (ends : ∀ c ∈ tail.head?, isDigit c = false)
    (power : exponentPart? tail = some e) :
    ofText? s (ds ++ '.' :: (fraction ++ tail)) = some ⟨s, digitsValue (ds ++ fraction), e - fraction.length⟩ := by
  have run : digitRun (ds ++ '.' :: (fraction ++ tail)) = (ds, '.' :: (fraction ++ tail)) :=
    digitRun_append digit (by simp; decide)
  have run' : digitRun (fraction ++ tail) = (fraction, tail) := digitRun_append digit' ends
  have some_digit : (ds.isEmpty && fraction.isEmpty) = false := by simpa [or_iff_not_imp_left] using filled
  simp only [ofText?, run, run', some_digit, power]
  rfl

end Decimal

end Surd
