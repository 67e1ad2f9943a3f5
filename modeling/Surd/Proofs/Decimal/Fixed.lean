import Surd.Proofs.Decimal.Places
import Surd.Proofs.Decimal.Reading

/-!
# Rounding to decimal places

A finite double is shown as the decimal that it is written as, if that is a whole number, and else as the multiple of a
power of ten that is nearest to this decimal, the even one of two (`Number.toFixed_nearest`). The text has no exponent
and no zeros at its end behind a point, and the flag beside it says whether the decimal was changed.
-/

namespace Surd

variable {places : ℕ} {q : ℚ} {k k' : ℤ} {d d' : Decimal} {x : Double}

/-! ## Nearest multiples -/

/-- The multiple `k / 10 ^ places` is nearest to a number, and `k` is even if another one is as near. -/
structure NearestMultiple (places : ℕ) (q : ℚ) (k : ℤ) : Prop where
  nearest : ∀ j : ℤ, |q - k / 10 ^ places| ≤ |q - j / 10 ^ places|
  even : ∀ j : ℤ, j ≠ k → |q - j / 10 ^ places| = |q - k / 10 ^ places| → Even k

namespace NearestMultiple

theorem abs_sub_multiple (places : ℕ) (q : ℚ) (j : ℤ) :
    |q - j / 10 ^ places| = |q * 10 ^ places - j| / 10 ^ places := by
  have power : (0 : ℚ) < 10 ^ places := by positivity
  rw [← abs_of_pos power, ← abs_div, abs_of_pos power, sub_div, mul_div_cancel_right₀ _ power.ne']

/-- Half a step away at most, and even if it is half a step. -/
theorem of_abs_le (near : |q * 10 ^ places - k| ≤ 1 / 2) (tie : |q * 10 ^ places - k| = 1 / 2 → Even k) :
    NearestMultiple places q k := by
  have power : (0 : ℚ) < 10 ^ places := by positivity
  -- Another multiple is a step away from this one, so that it is half a step away from the number at least.
  have apart {j : ℤ} (other : j ≠ k) : 1 ≤ |q * 10 ^ places - j| + |q * 10 ^ places - k| := by
    calc (1 : ℚ) ≤ |((k - j : ℤ) : ℚ)| := by exact_mod_cast Int.one_le_abs (sub_ne_zero.mpr other.symm)
      _ = |(q * 10 ^ places - j) - (q * 10 ^ places - k)| := by push_cast; ring_nf
      _ ≤ |q * 10 ^ places - j| + |q * 10 ^ places - k| := abs_sub _ _
  refine ⟨fun j => ?_, fun j other same => tie ?_⟩
  · rw [abs_sub_multiple, abs_sub_multiple, div_le_div_iff_of_pos_right power]
    obtain rfl | other := eq_or_ne j k
    · exact le_rfl
    · linarith [apart other]
  · rw [abs_sub_multiple, abs_sub_multiple, div_left_inj' power.ne'] at same
    linarith [apart other]

/-- There is one nearest multiple only. -/
theorem unique (h : NearestMultiple places q k) (h' : NearestMultiple places q k') : k' = k := by
  by_contra other
  have same : |q - k' / 10 ^ places| = |q - k / 10 ^ places| := le_antisymm (h'.nearest k) (h.nearest k')
  obtain ⟨m, hm⟩ := (h.even k' other same).add (h'.even k (Ne.symm other) same.symm)
  have power : (0 : ℚ) < 10 ^ places := by positivity
  have closest := h.nearest m
  rw [abs_sub_multiple, abs_sub_multiple] at same closest
  rw [div_left_inj' power.ne'] at same
  rw [div_le_div_iff_of_pos_right power] at closest
  -- The number is in the middle of the two, which is a multiple as well.
  obtain equal | opposite := abs_eq_abs.mp same
  · exact other (by exact_mod_cast sub_right_inj.mp equal)
  · have middle : q * 10 ^ places = m := by
      have sum : (k : ℚ) + k' = m + m := by exact_mod_cast hm
      linarith
    rw [middle, sub_self, abs_zero, abs_nonpos_iff, sub_eq_zero] at closest
    rw [middle, closest] at opposite
    exact other (by exact_mod_cast (by linarith : (k' : ℚ) = k))

end NearestMultiple

/-- A number, in exact decimals, and the number that is shown for it: a whole number itself, and of another number the
nearest multiple of the last place. The flag says whether they differ. -/
structure Rounded (places : ℕ) (d q : ℚ) (flag : Bool) : Prop where
  whole : (∃ n : ℤ, d = n) → q = d
  fraction : (¬∃ n : ℤ, d = n) → ∃ k, (∀ j, NearestMultiple places d j ↔ j = k) ∧ q = k / 10 ^ places
  flag : flag = true ↔ q ≠ d

/-! ## Plain texts -/

/-- A sign at most, digits, and after a point more digits that do not end in zero. -/
structure PlainText (cs : List Char) : Prop where
  numeral : ∃ s size, cs = Decimal.signText s ++ size ∧ NumeralText size
  trimmed : '.' ∈ cs → cs.getLast? ≠ some '0'

theorem stripZeros_mod {n : ℕ} (h : n ≠ 0) : (stripZeros n).1 % 10 ≠ 0 := by
  fun_induction stripZeros n with
  | case1 n _ r ih => exact ih (by omega)
  | case2 n last => exact fun zero => last ⟨h, zero⟩

namespace Decimal

/-- Where a coefficient is normalized, its last digit is not zero. -/
theorem coefficient_normalize_mod (h : d.normalize.coefficient ≠ 0) : d.normalize.coefficient % 10 ≠ 0 := by
  rw [normalize] at h ⊢
  split at h
  · exact absurd rfl h
  · rename_i nonzero
    rw [if_neg nonzero]
    exact stripZeros_mod nonzero

theorem plainText_plain (d : Decimal) : PlainText d.normalize.plain.toList := by
  generalize same : d.normalize = n
  have last : n.exponent < 0 → n.coefficient % 10 ≠ 0 := by
    intro small
    subst same
    refine coefficient_normalize_mod fun zero => ?_
    exact small.ne (exponent_normalize_eq_zero zero)
  rw [plain, String.toList_ofList]
  refine ⟨⟨_, _, rfl, numeralText_positional _ _⟩, fun point => ?_⟩
  by_cases he : 0 ≤ n.exponent
  · refine absurd point ?_
    rw [positional, if_pos he]
    intro there
    obtain sign | digit := List.mem_append.mp there
    · revert sign
      cases n.negative <;> decide
    · cases isDigit_append_zeros _ digit
  · obtain ⟨whole, fraction, layout, _, _, places, value⟩ := Json.exists_split_positional n.coefficient (not_le.mp he)
    have filled : fraction ≠ [] := by
      rintro rfl
      exact he (by simpa using places.ge)
    rw [layout, ← List.append_assoc, List.getLast?_append_of_ne_nil _ (List.cons_ne_nil _ _),
      List.getLast?_cons_of_ne_nil filled]
    intro zero
    obtain ⟨more, rfl⟩ := List.getLast?_eq_some_iff.mp zero
    rw [← List.append_assoc, digitsValue_append_singleton] at value
    refine last (not_le.mp he) ?_
    rw [← value, show digitValue '0' = 0 from rfl]
    omega

/-! ## Values -/

/-- Of two decimals of one size the one without a zero at its end has the greater exponent. -/
theorem exponent_le_of_size_eq (last : d.coefficient % 10 ≠ 0) (same : d.size = d'.size) :
    d'.exponent ≤ d.exponent := by
  by_contra longer
  obtain ⟨n, hn⟩ : ∃ n : ℕ, d'.exponent = d.exponent + (n + 1 : ℕ) :=
    ⟨(d'.exponent - d.exponent - 1).toNat, by omega⟩
  have scaled : d.size = size ⟨d.negative, d'.coefficient * 10 ^ (n + 1), d.exponent⟩ := by
    rw [same, size_mul_pow _ d'.negative, ← hn]
  rw [size, size, mul_left_inj' (zpow_pos ten_pos _).ne'] at scaled
  have coefficient : d.coefficient = d'.coefficient * 10 ^ (n + 1) := by exact_mod_cast scaled
  rw [pow_succ, ← Nat.mul_assoc] at coefficient
  omega

theorem normalize_congr (sign : d.negative = d'.negative) (same : d.size = d'.size) : d.normalize = d'.normalize := by
  have sizes : d.normalize.size = d'.normalize.size := by rw [size_normalize, size_normalize, same]
  have zero : d.normalize.coefficient = 0 ↔ d'.normalize.coefficient = 0 := by
    rw [← size_eq_zero, sizes, size_eq_zero]
  have exponents : d.normalize.exponent = d'.normalize.exponent := by
    by_cases h : d.normalize.coefficient = 0
    · rw [exponent_normalize_eq_zero h, exponent_normalize_eq_zero (zero.mp h)]
    · exact le_antisymm (exponent_le_of_size_eq (coefficient_normalize_mod (zero.not.mp h)) sizes.symm)
        (exponent_le_of_size_eq (coefficient_normalize_mod h) sizes)
  have coefficients : d.normalize.coefficient = d'.normalize.coefficient := by
    rw [size, size, exponents, mul_left_inj' (zpow_pos ten_pos _).ne'] at sizes
    exact_mod_cast sizes
  have signs : d.normalize.negative = d'.normalize.negative := by rw [normalize_negative, normalize_negative, sign]
  generalize d.normalize = n at *
  generalize d'.normalize = n' at *
  obtain ⟨_, _, _⟩ := n
  obtain ⟨_, _, _⟩ := n'
  rw [mk.injEq]
  exact ⟨signs, coefficients, exponents⟩

/-- Decimals of one sign denote the same number if they have the same value. -/
theorem sameValue_iff (sign : d.negative = d'.negative) : d.sameValue d' = true ↔ d.value = d'.value := by
  rw [sameValue, beq_iff_eq]
  constructor
  · intro same
    rw [← value_normalize, same, value_normalize]
  · exact fun same => normalize_congr sign ((value_eq_iff sign).mp same)

/-- The value scaled by a power of ten, as a sign and a quotient of natural numbers. -/
theorem value_mul_ten_pow (d : Decimal) (places : ℕ) :
    d.value * 10 ^ places = (if d.negative then -1 else 1) *
      ((d.coefficient * 10 ^ (d.exponent + places).toNat : ℕ) / (10 ^ (-(d.exponent + places)).toNat : ℕ)) := by
  have scaled := scaled_div d.coefficient (d.exponent + places)
  rw [zpow_add₀ ten_pos.ne', zpow_natCast] at scaled
  rw [value, mul_assoc, mul_assoc, ← Rat.cast_inj (α := ℝ)]
  push_cast at scaled ⊢
  rw [scaled]

/-- A decimal is whole if the power of ten that it is divided by divides its coefficient. -/
theorem isWhole_iff : d.isWhole = true ↔ ∃ n : ℤ, d.value = n := by
  have value := value_mul_ten_pow d 0
  rw [pow_zero, mul_one, Nat.cast_zero, add_zero] at value
  have power : ((10 ^ (-d.exponent).toNat : ℕ) : ℚ) ≠ 0 := by positivity
  rw [isWhole, beq_iff_eq]
  constructor
  · intro whole
    obtain ⟨m, hm⟩ := Nat.dvd_of_mod_eq_zero whole
    have size : ((d.coefficient * 10 ^ d.exponent.toNat : ℕ) : ℚ) / (10 ^ (-d.exponent).toNat : ℕ) =
        (m * 10 ^ d.exponent.toNat : ℕ) := by
      rw [hm, Nat.mul_assoc, Nat.cast_mul, mul_div_cancel_left₀ _ power]
    refine ⟨(if d.negative then -1 else 1) * (m * 10 ^ d.exponent.toNat : ℕ), ?_⟩
    rw [value, size]
    cases d.negative <;> simp
  · rintro ⟨n, hn⟩
    have size : ((d.coefficient * 10 ^ d.exponent.toNat : ℕ) : ℚ) / (10 ^ (-d.exponent).toNat : ℕ) = |(n : ℚ)| := by
      rw [← hn, value, abs_mul, abs_of_nonneg (by positivity : (0 : ℚ) ≤ _ / _)]
      cases d.negative <;> simp
    have parts : d.coefficient * 10 ^ d.exponent.toNat = n.natAbs * 10 ^ (-d.exponent).toNat := by
      rw [div_eq_iff power, ← Int.cast_abs, Int.abs_eq_natAbs] at size
      exact_mod_cast size
    obtain he | he := le_or_gt 0 d.exponent
    · rw [Int.toNat_of_nonpos (by omega), pow_zero, Nat.mod_one]
    · rw [Int.toNat_of_nonpos he.le, pow_zero, Nat.mul_one] at parts
      rw [parts, Nat.mul_mod_left]

/-- Rounding to decimal places finds the nearest multiple. -/
theorem toPlaces_nearest (d : Decimal) (places : ℕ) :
    ∃ k, NearestMultiple places d.value k ∧ (d.toPlaces places).value = k / 10 ^ places := by
  have hden : 0 < 10 ^ (-(d.exponent + places)).toNat := Nat.pow_pos (by decide)
  have scaled := value_mul_ten_pow d places
  have near := abs_roundDiv_sub_le (d.coefficient * 10 ^ (d.exponent + places).toNat) hden
  have even := even_roundDiv (d.coefficient * 10 ^ (d.exponent + places).toNat) hden
  have shown : d.toPlaces places = ⟨d.negative, roundDiv (d.coefficient * 10 ^ (d.exponent + places).toNat)
    (10 ^ (-(d.exponent + places)).toNat), -places⟩ := rfl
  generalize d.coefficient * 10 ^ (d.exponent + places).toNat = num at *
  generalize 10 ^ (-(d.exponent + places)).toNat = den at *
  -- The sign takes no part in the distance.
  have distance : ((|d.value * 10 ^ places - ((if d.negative then -1 else 1) * roundDiv num den : ℤ)| : ℚ) : ℝ) =
      |(roundDiv num den : ℝ) - num / den| := by
    rw [scaled]
    cases d.negative with
    | true => simp [neg_add_eq_sub]
    | false => simp [abs_sub_comm]
  refine ⟨(if d.negative then -1 else 1) * roundDiv num den, .of_abs_le ?_ fun tie => ?_, ?_⟩
  · rw [← Rat.cast_le (K := ℝ), distance]
    exact near.trans_eq (by norm_num)
  · rw [tie] at distance
    have parity : Even (roundDiv num den : ℤ) := by exact_mod_cast even (by rw [← distance]; norm_num)
    exact parity.mul_left _
  · rw [shown, value, zpow_neg, zpow_natCast]
    push_cast
    rw [mul_div_assoc, div_eq_mul_inv]

/-! ## Shown decimals -/

theorem Short.toFixed_rounded (h : d.Short) (hp : places ≤ 300) :
    Returns (d.toFixed places) fun r =>
      PlainText r.1.toList ∧ ∃ q, read? r.1.toList = some q ∧ Rounded places d.value q.value r.2 := by
  rw [h.toFixed_eq hp]
  refine .ok ?_
  split
  · rename_i whole
    obtain ⟨q, read, same⟩ := exists_read?_plain d.normalize
    rw [value_normalize] at same
    refine ⟨plainText_plain d, q, read, ?_⟩
    exact {
      whole := fun _ => same
      fraction := fun fraction => absurd (isWhole_iff.mp whole) fraction
      flag := by simp [same] }
  · rename_i fraction
    obtain ⟨q, read, same⟩ := exists_read?_plain (d.toPlaces places).normalize
    rw [value_normalize] at same
    obtain ⟨k, nearest, multiple⟩ := toPlaces_nearest d places
    have only : ∀ j, NearestMultiple places d.value j ↔ j = k := fun j =>
      ⟨fun other => nearest.unique other, fun equal => equal ▸ nearest⟩
    have sign : (d.toPlaces places).negative = d.negative := rfl
    refine ⟨plainText_plain _, q, read, ?_⟩
    exact {
      whole := fun whole => absurd (isWhole_iff.mpr whole) fraction
      fraction := fun _ => ⟨k, only, same.trans multiple⟩
      flag := by
        rw [same, Bool.not_eq_true', ← Bool.not_eq_true]
        exact (sameValue_iff sign).not }

end Decimal

/-! ## Shown doubles -/

theorem Double.text_of_isFinite (hx : x.isFinite = true) : x.text = (Decimal.shortest x).write .reading := by
  cases x with
  | nan => cases hx
  | infinite => cases hx
  | finite => rfl

/-- **Correct rounding of what is shown.** A finite double is shown, with up to a hundred decimal places, as a plain
text: digits with a sign at most, and no zeros at the end behind a point. Let `d` be the decimal that the double is
written as. If `d` is a whole number, the shown decimal is `d`. Otherwise it is the multiple of the last place that is
nearest to `d`, and the even one if two are equally near. The flag is set if and only if the shown decimal is not
`d`. -/
theorem Number.toFixed_nearest (hx : x.isFinite = true) (hp : places ≤ 100) :
    ∃ d, Decimal.read? x.text.toList = some d ∧
      Returns ((real x).toFixed places) fun r =>
        PlainText r.1.toList ∧ ∃ q, Decimal.read? r.1.toList = some q ∧ Rounded places d.value q.value r.2 := by
  obtain ⟨d, read, -, same⟩ := Decimal.exists_read?_write (Decimal.shortest x)
  refine ⟨d, by rw [Double.text_of_isFinite hx]; exact read, ?_⟩
  rw [Number.toFixed_real hx, same]
  exact (Decimal.short_shortest hx).toFixed_rounded (by omega)

namespace Number

/-- An eighth lies half-way between twelve and thirteen hundredths, and twelve is the even one. -/
theorem toFixed_nearest_eighth :
    (Double.ofBits 0x3FC0000000000000).isFinite = true ∧ 2 ≤ 100 ∧
    (real (.ofBits 0x3FC0000000000000)).toFixed 2 = .ok ("0.12", true) ∧ NearestMultiple 2 (1 / 8) 12 := by
  have finite : (Double.ofBits 0x3FC0000000000000).isFinite = true := by decide +kernel
  have shown : (real (.ofBits 0x3FC0000000000000)).toFixed 2 = .ok ("0.12", true) := by decide +kernel
  obtain ⟨d, read, returns⟩ := toFixed_nearest finite (show 2 ≤ 100 by decide)
  rw [shown, Returns.ok_iff] at returns
  obtain ⟨_, q, read', rounded⟩ := returns
  have written : Decimal.read? (Double.ofBits 0x3FC0000000000000).text.toList = some ⟨false, 125, -3⟩ := by
    decide +kernel
  have written' : Decimal.read? "0.12".toList = some ⟨false, 12, -2⟩ := by decide +kernel
  obtain rfl := Option.some.inj (read.symm.trans written)
  obtain rfl := Option.some.inj (read'.symm.trans written')
  have eighth : Decimal.value ⟨false, 125, -3⟩ = 1 / 8 := by norm_num [Decimal.value]
  have hundredths : Decimal.value ⟨false, 12, -2⟩ = 12 / 10 ^ 2 := by norm_num [Decimal.value]
  have no_whole : ¬∃ n : ℤ, (1 / 8 : ℚ) = n := by
    rintro ⟨n, hn⟩
    have eight : 8 * n = 1 := by exact_mod_cast (by linarith : (8 : ℚ) * n = 1)
    omega
  rw [eighth, hundredths] at rounded
  obtain ⟨k, only, multiple⟩ := rounded.fraction no_whole
  have twelve : (12 : ℤ) = k := by
    rw [div_left_inj' (by norm_num)] at multiple
    exact_mod_cast multiple
  exact ⟨finite, by decide, shown, (only 12).mpr twelve⟩

end Number

end Surd
