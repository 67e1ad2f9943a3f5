import Surd.Proofs.Double.Nearest

/-!
# Finite doubles

A quotient below 2 ^ 1023 has a finite nearest double, so an overflow comes from large numbers only. A sum or a product
whose exact value is a double is that double. What is finite stays finite under a change of its sign, and an operation on
finite doubles is never "not a number".
-/

namespace Surd.Double

variable {s t : Bool} {num den : Nat} {x y z : Double}

theorem isInfinite_of_isFinite (h : x.isFinite = true) : x.isInfinite = false := by
  cases x with
  | nan => rfl
  | infinite => cases h
  | finite => rfl

/-! ## Bounds -/

theorem isFinite_pack {m : Nat} {e : Int} (fits : Fits m e) : (pack s m e).isFinite = true := by
  rw [pack, dif_pos fits]
  rfl

theorem toReal_greatest : greatest.toReal = (2 ^ 53 - 1) * 2 ^ (971 : Int) := by
  have fits : Fits (2 ^ 53 - 1) maxExponent := by decide
  rw [greatest, pack, dif_pos fits, toReal_finite, if_neg Bool.false_ne_true, maxExponent]
  norm_num

theorem pow_lt_greatest : (2 : ℝ) ^ (1023 : Int) < greatest.toReal := by
  rw [toReal_greatest, show (1023 : Int) = 52 + 971 from rfl, zpow_add₀ two_ne_zero]
  exact mul_lt_mul_of_pos_right (by norm_num) (zpow_pos two_pos _)

theorem greatest_lt_pow : greatest.toReal < (2 : ℝ) ^ (1024 : Int) := by
  rw [toReal_greatest, show (1024 : Int) = 53 + 971 from rfl, zpow_add₀ two_ne_zero]
  exact mul_lt_mul_of_pos_right (by norm_num) (zpow_pos two_pos _)

/-- A quotient below the greatest double rounds to a finite double. -/
theorem isFinite_nearest_of_lt (s : Bool) (hd : 0 < den) (h : (num : ℝ) / den < greatest.toReal) :
    (nearest s num den).isFinite = true := by
  obtain rfl | hn := Nat.eq_zero_or_pos num
  · rfl
  obtain ⟨low, high⟩ := floorLog2_spec hn hd
  have short := (zpow_lt_zpow_iff_right₀ one_lt_two).mp ((low.trans_lt h).trans greatest_lt_pow)
  rw [nearest, if_neg hn.ne']
  dsimp only
  by_cases least : minExponent ≤ floorLog2 num den - 52
  -- With all 53 digits the mantissa has its leading one, and rounding up may carry into the exponent.
  · have full := pow_le_roundDiv_scaled (k := 52) (e := floorLog2 num den - 52) hd (by
      rwa [Nat.cast_ofNat, add_sub_cancel])
    have below := roundDiv_scaled_le_pow (k := 53) (e := floorLog2 num den - 52) hd (by
      exact high.trans_eq (congrArg _ (by omega)))
    rw [max_eq_left least]
    split
    · rename_i carry
      -- At the greatest exponent there is no carry: the mantissa is that of the greatest double at most.
      have lower : floorLog2 num den - 52 ≠ maxExponent := by
        intro most
        have top : roundDiv (num * scaleDown maxExponent) (scaleUp den maxExponent) ≤ 2 ^ 53 - 1 := by
          apply roundDiv_le (scaleUp_pos hd _)
          rw [div_scaled, div_lt_iff₀ (zpow_pos two_pos _)]
          exact h.trans_eq (by norm_num [toReal_greatest, maxExponent])
        rw [most] at carry
        omega
      rw [maxExponent] at lower
      exact isFinite_pack ⟨by decide, by omega, by rw [maxExponent]; omega, .inl le_rfl⟩
    · exact isFinite_pack ⟨by omega, least, by rw [maxExponent]; omega, .inl full⟩
  · have below := roundDiv_scaled_le_pow (k := 52) (e := minExponent) hd (by
      exact high.trans_le (zpow_le_zpow_right₀ one_le_two (by omega)))
    rw [max_eq_right (by omega)]
    split
    · exact isFinite_pack ⟨by decide, by decide, by decide, .inl le_rfl⟩
    · exact isFinite_pack ⟨by omega, le_rfl, by decide, .inr rfl⟩

/-- So does one below the last power of two that is a double. -/
theorem isFinite_nearest (s : Bool) (hd : 0 < den) (h : (num : ℝ) / den < 2 ^ (1023 : Int)) :
    (nearest s num den).isFinite = true :=
  isFinite_nearest_of_lt s hd (h.trans pow_lt_greatest)

theorem isFinite_ofInt_of_lt {n : Int} (h : |(n : ℝ)| < greatest.toReal) : (ofInt n).isFinite = true := by
  rw [ofInt, ofScaled]
  split
  · rfl
  · apply isFinite_nearest_of_lt _ (scaleDown_pos 0)
    rwa [scaleUp_div_scaleDown, zpow_zero, mul_one, Nat.cast_natAbs, Int.cast_abs]

theorem isFinite_ofInt {n : Int} (h : n.natAbs < 2 ^ 1023) : (ofInt n).isFinite = true := by
  refine isFinite_ofInt_of_lt (lt_trans ?_ pow_lt_greatest)
  rw [← Int.cast_abs, ← Nat.cast_natAbs]
  exact_mod_cast h

theorem nearest_ne_nan (s : Bool) (num den : Nat) : nearest s num den ≠ nan := by
  have packed : ∀ (m : Nat) (e : Int), pack s m e ≠ nan := by
    intro m e
    rw [pack]
    split <;> exact Double.noConfusion
  rw [nearest]
  split
  · exact Double.noConfusion
  · dsimp only
    split <;> exact packed _ _

@[simp] theorem negative_nearest (s : Bool) (num den : Nat) : (nearest s num den).negative = s := by
  have packed : ∀ (m : Nat) (e : Int), (pack s m e).negative = s := by
    intro m e
    rw [pack]
    split <;> rfl
  rw [nearest]
  split
  · rfl
  · dsimp only
    split <;> exact packed _ _

/-- A quotient that reaches a power of two reaches it also after rounding. -/
theorem zpow_le_toReal_nearest {k : Int} (least : minExponent ≤ k) (hd : 0 < den) (h : (2 : ℝ) ^ k ≤ num / den)
    (finite : (nearest false num den).isFinite = true) : (2 : ℝ) ^ k ≤ (nearest false num den).toReal := by
  have packed : ∀ {m : Nat} {e : Int}, (pack false m e).isFinite = true → (2 : ℝ) ^ k ≤ m * 2 ^ e →
      (2 : ℝ) ^ k ≤ (pack false m e).toReal := by
    intro m e finite reached
    rw [pack] at finite ⊢
    split at finite
    · rename_i fits
      rwa [dif_pos fits, toReal_finite, if_neg Bool.false_ne_true]
    · cases finite
  have hn : 0 < num := by
    refine Nat.pos_of_ne_zero fun zero => ?_
    rw [zero, Nat.cast_zero, zero_div] at h
    exact (zpow_pos two_pos k).not_ge h
  obtain ⟨low, high⟩ := floorLog2_spec hn hd
  have above := (zpow_lt_zpow_iff_right₀ one_lt_two).mp (h.trans_lt high)
  rw [nearest, if_neg hn.ne'] at finite ⊢
  dsimp only at finite ⊢
  obtain ⟨j, hj⟩ : ∃ j : Nat, j + max (floorLog2 num den - 52) minExponent = floorLog2 num den :=
    ⟨(floorLog2 num den - max (floorLog2 num den - 52) minExponent).toNat, by omega⟩
  generalize max (floorLog2 num den - 52) minExponent = e at finite hj ⊢
  have reached : (2 : ℝ) ^ k ≤ roundDiv (num * scaleDown e) (scaleUp den e) * 2 ^ e := by
    have mantissa := pow_le_roundDiv_scaled hd (hj ▸ low)
    calc (2 : ℝ) ^ k ≤ 2 ^ floorLog2 num den := zpow_le_zpow_right₀ one_le_two (by omega)
      _ = (2 ^ j : Nat) * 2 ^ e := by
          rw [← hj, zpow_add₀ two_ne_zero, zpow_natCast]
          push_cast
          rfl
      _ ≤ _ := mul_le_mul_of_nonneg_right (by exact_mod_cast mantissa) (zpow_pos two_pos e).le
  split at finite
  · rename_i carry
    rw [if_pos carry]
    refine packed finite (reached.trans_eq ?_)
    rw [carry, zpow_add_one₀ two_ne_zero]
    push_cast
    ring
  · rename_i carry
    rw [if_neg carry]
    exact packed finite reached

/-- Every finite double is below 2 ^ 1024. -/
theorem abs_toReal_lt (x : Double) : |x.toReal| < 2 ^ 1024 := by
  cases x with
  | nan => simp [toReal, significand]
  | infinite => simp [toReal, significand]
  | finite s m e h =>
      have size : (m : ℝ) * 2 ^ e < 2 ^ 53 * 2 ^ (971 : Int) := by
        have short : (m : ℝ) < 2 ^ 53 := by exact_mod_cast h.1
        have low : (2 : ℝ) ^ e ≤ 2 ^ (971 : Int) := zpow_le_zpow_right₀ one_le_two h.2.2.1
        exact mul_lt_mul short low (zpow_pos two_pos e) (by positivity)
      rw [← toReal_abs, abs, toReal_finite, if_neg Bool.false_ne_true]
      calc (m : ℝ) * 2 ^ e < 2 ^ 53 * 2 ^ (971 : Int) := size
        _ = 2 ^ 1024 := by
            rw [← zpow_natCast, ← zpow_natCast, ← zpow_add₀ two_ne_zero]
            rfl

/-! ## Signs -/

/-- Whether rounding ends in an infinity does not depend on the sign. -/
theorem isInfinite_nearest (s t : Bool) (num den : Nat) :
    (nearest s num den).isInfinite = (nearest t num den).isInfinite := by
  have packed : ∀ (m : Nat) (e : Int), (pack s m e).isInfinite = (pack t m e).isInfinite := by
    intro m e
    rw [pack, pack]
    split <;> rfl
  rw [nearest, nearest]
  split
  · rfl
  · dsimp only
    split <;> exact packed _ _

theorem isInfinite_ofInt_neg (n : Int) : (ofInt (-n)).isInfinite = (ofInt n).isInfinite := by
  simp only [ofInt, ofScaled, Int.neg_eq_zero, Int.natAbs_neg]
  split
  · rfl
  · exact isInfinite_nearest _ _ _ _

/-- A number that is not negative does not become one by rounding. -/
theorem compareInt?_nearest (num den : Nat) : (nearest false num den).compareInt? 0 ≠ some .lt := by
  have packed : ∀ (m : Nat) (e : Int), (pack false m e).compareInt? 0 ≠ some .lt := by
    intro m e
    rw [pack]
    split
    · rw [compareInt?_of_isFinite rfl, toReal_finite, if_neg Bool.false_ne_true, Ne, Option.some.injEq,
        compare_lt_iff_lt, Int.cast_zero, not_lt]
      positivity
    · decide
  rw [nearest]
  split
  · rw [compareInt?_of_isFinite rfl, toReal_zero, Int.cast_zero, compare_eq_iff_eq.mpr rfl]
    decide
  · dsimp only
    split <;> exact packed _ _

theorem compareInt?_ofInt (n : Nat) : (ofInt n).compareInt? 0 ≠ some .lt := by
  rw [ofInt, ofScaled, decide_eq_false (Int.natCast_nonneg n).not_gt]
  split
  · exact compareInt?_nearest 0 1
  · exact compareInt?_nearest _ _

@[simp] theorem isFinite_neg (x : Double) : x.neg.isFinite = x.isFinite := by
  cases x <;> rfl

@[simp] theorem toReal_neg (x : Double) : x.neg.toReal = -x.toReal := by
  have same : x.neg.exponent = x.exponent := by cases x <;> rfl
  rw [toReal, toReal, significand_neg, same, Int.cast_neg, neg_mul]

theorem negative_iff (hx : x.isFinite = true) (nonzero : x.toReal ≠ 0) : x.negative = true ↔ x.toReal < 0 := by
  cases x with
  | nan => cases hx
  | infinite => cases hx
  | finite s m e fits =>
      have size : (0 : ℝ) ≤ m * 2 ^ e := by positivity
      rw [toReal_finite] at nonzero ⊢
      cases s with
      | true => simpa [negative] using lt_of_le_of_ne size (by simpa using nonzero.symm)
      | false => simpa [negative] using size

/-! ## Exact results -/

/-- A quotient of the size of a double rounds to that size. -/
theorem nearest_of_eq (s : Bool) (hd : 0 < den) (hz : z.isFinite = true) (h : (num : ℝ) / den = |z.toReal|) :
    (nearest s num den).isFinite = true ∧
      (nearest s num den).toReal = if s then -|z.toReal| else |z.toReal| := by
  cases z with
  | nan => cases hz
  | infinite => cases hz
  | finite t m e fits =>
      have size : |(finite t m e fits).toReal| = m * 2 ^ e := by
        rw [← toReal_abs, abs, toReal_finite, if_neg Bool.false_ne_true]
      rw [size] at h ⊢
      obtain rfl | hm := Nat.eq_zero_or_pos m
      · have hden : (den : ℝ) ≠ 0 := by exact_mod_cast hd.ne'
        rw [Nat.cast_zero, zero_mul, div_eq_zero_iff, or_iff_left hden, Nat.cast_eq_zero] at h
        rw [nearest, if_pos h]
        exact ⟨rfl, by simp⟩
      · rw [nearest_eq_finite s fits hm hd h]
        exact ⟨rfl, toReal_finite s m e fits⟩

theorem ofScaled_of_eq {n e : Int} (hz : z.isFinite = true) (h : (n : ℝ) * 2 ^ e = z.toReal) (s : Bool) :
    (ofScaled s n e).isFinite = true ∧ (ofScaled s n e).toReal = z.toReal := by
  rw [ofScaled]
  split
  · rename_i zero
    rw [← h, zero, Int.cast_zero, zero_mul]
    exact ⟨rfl, toReal_zero s⟩
  · have power : (0 : ℝ) < 2 ^ e := zpow_pos two_pos e
    have size : ((scaleUp n.natAbs e : Nat) : ℝ) / (scaleDown e : Nat) = |z.toReal| := by
      rw [scaleUp_natAbs_div_scaleDown, h]
    obtain ⟨finite, value⟩ := nearest_of_eq (decide (n < 0)) (scaleDown_pos e) hz size
    refine ⟨finite, value.trans ?_⟩
    rw [← h]
    obtain neg | nonneg := lt_or_ge n 0
    · have below : (n : ℝ) * 2 ^ e ≤ 0 := mul_nonpos_of_nonpos_of_nonneg (by exact_mod_cast neg.le) power.le
      rw [decide_eq_true neg, if_pos rfl, abs_of_nonpos below, neg_neg]
    · have above : 0 ≤ (n : ℝ) * 2 ^ e := mul_nonneg (by exact_mod_cast nonneg) power.le
      rw [decide_eq_false nonneg.not_gt, if_neg Bool.false_ne_true, abs_of_nonneg above]

/-- A sum is the exact one rounded once. -/
theorem exists_add_eq_ofScaled (hx : x.isFinite = true) (hy : y.isFinite = true) :
    ∃ (s : Bool) (n e : Int), (n : ℝ) * 2 ^ e = x.toReal + y.toReal ∧ x.add y = ofScaled s n e := by
  cases x with
  | nan => cases hx
  | infinite => cases hx
  | finite s m d fits =>
      cases y with
      | nan => cases hy
      | infinite => cases hy
      | finite t n e fits' =>
          have shifted : ∀ {k : Int} (a : Int), min d e ≤ k →
              ((a * 2 ^ (k - min d e).toNat : Int) : ℝ) * 2 ^ min d e = a * 2 ^ k := by
            intro k a hk
            push_cast
            rw [mul_assoc, ← zpow_natCast, ← zpow_add₀ two_ne_zero]
            congr 2
            omega
          refine ⟨s && t, _, min d e, ?_, rfl⟩
          rw [Int.cast_add, add_mul, shifted _ (min_le_left d e), shifted _ (min_le_right d e)]
          rfl

theorem add_of_eq (hx : x.isFinite = true) (hy : y.isFinite = true) (hz : z.isFinite = true)
    (h : x.toReal + y.toReal = z.toReal) : (x.add y).isFinite = true ∧ (x.add y).toReal = z.toReal := by
  obtain ⟨s, n, e, sum, rounded⟩ := exists_add_eq_ofScaled hx hy
  rw [rounded]
  exact ofScaled_of_eq hz (sum.trans h) s

theorem mul_of_eq (hx : x.isFinite = true) (hy : y.isFinite = true) (hz : z.isFinite = true)
    (h : x.toReal * y.toReal = z.toReal) : (x.mul y).isFinite = true ∧ (x.mul y).toReal = z.toReal := by
  cases x with
  | nan => cases hx
  | infinite => cases hx
  | finite s m d fits =>
      cases y with
      | nan => cases hy
      | infinite => cases hy
      | finite t n e fits' =>
          have size : ((scaleUp (m * n) (d + e) : Nat) : ℝ) / (scaleDown (d + e) : Nat) =
              m * 2 ^ d * (n * 2 ^ e) := by
            rw [scaleUp_div_scaleDown, zpow_add₀ two_ne_zero]
            push_cast
            ring
          have positive : 0 ≤ (m : ℝ) * 2 ^ d * (n * 2 ^ e) := by positivity
          rw [toReal_finite, toReal_finite] at h
          have absolute : |z.toReal| = m * 2 ^ d * (n * 2 ^ e) := by
            rw [← h]
            cases s <;> cases t <;> simp [abs_of_nonneg positive]
          obtain ⟨finite, value⟩ := nearest_of_eq (s != t) (scaleDown_pos (d + e)) hz (size.trans absolute.symm)
          refine ⟨finite, value.trans ?_⟩
          rw [absolute, ← h]
          cases s <;> cases t <;> simp

/-- A product is rounded once. -/
theorem exists_mul_eq_nearest (hx : x.isFinite = true) (hy : y.isFinite = true) :
    ∃ num den : Nat, 0 < den ∧ (num : ℝ) / den = |x.toReal * y.toReal| ∧
      x.mul y = nearest (x.negative != y.negative) num den := by
  cases x with
  | nan => cases hx
  | infinite => cases hx
  | finite s m d fits =>
      cases y with
      | nan => cases hy
      | infinite => cases hy
      | finite t n e fits' =>
          refine ⟨_, _, scaleDown_pos (d + e), ?_, rfl⟩
          rw [scaleUp_div_scaleDown, abs_mul, ← toReal_abs, ← toReal_abs, abs, abs, toReal_finite, toReal_finite,
            if_neg Bool.false_ne_true, if_neg Bool.false_ne_true, zpow_add₀ two_ne_zero]
          push_cast
          ring

/-! ## Whole numbers -/

/-- A double that is found to be whole is a finite one with the value of a whole number. -/
theorem exists_of_isWhole (h : x.isWhole = true) : x.isFinite = true ∧ ∃ n : Int, x.toReal = n := by
  cases x with
  | nan => cases h
  | infinite => cases h
  | finite s m e fits =>
      obtain ⟨k, rfl⟩ := Nat.dvd_of_mod_eq_zero (beq_iff_eq.mp h)
      have down : (scaleDown e : ℝ) ≠ 0 := by exact_mod_cast (scaleDown_pos e).ne'
      have value : ((scaleDown e * k : Nat) : ℝ) * 2 ^ e = (scaleUp k e : Nat) * (scaleDown e / scaleDown e) := by
        rw [← scaleUp_div_scaleDown]
        push_cast
        ring
      rw [div_self down, mul_one] at value
      refine ⟨rfl, if s then -(scaleUp k e : Nat) else (scaleUp k e : Nat), ?_⟩
      rw [toReal_finite, value]
      cases s <;> simp

theorem exists_nat_of_isWhole (h : x.isWhole = true) (sign : x.compareInt? 0 ≠ some .lt) :
    x.isFinite = true ∧ ∃ n : Nat, x.toReal = n := by
  obtain ⟨finite, n, value⟩ := exists_of_isWhole h
  rw [compareInt?_of_isFinite finite, value, Ne, Option.some.injEq, compare_lt_iff_lt, not_lt, Int.cast_le] at sign
  obtain ⟨k, rfl⟩ := Int.eq_ofNat_of_zero_le sign
  exact ⟨finite, k, value.trans (Int.cast_natCast k)⟩

/-! ## Operations that are numbers -/

theorem ne_nan_of_isFinite (hx : x.isFinite = true) : x ≠ nan := by
  rintro rfl
  cases hx

theorem ofScaled_ne_nan (s : Bool) (n e : Int) : ofScaled s n e ≠ nan := by
  rw [ofScaled]
  split
  · exact Double.noConfusion
  · exact nearest_ne_nan _ _ _

theorem add_ne_nan (hx : x.isFinite = true) (hy : y.isFinite = true) : x.add y ≠ nan := by
  cases x with
  | nan => cases hx
  | infinite => cases hx
  | finite s m d h =>
      cases y with
      | nan => cases hy
      | infinite => cases hy
      | finite t n e k => exact ofScaled_ne_nan _ _ _

theorem mul_ne_nan (hx : x.isFinite = true) (hy : y.isFinite = true) : x.mul y ≠ nan := by
  obtain ⟨num, den, _, _, product⟩ := exists_mul_eq_nearest hx hy
  rw [product]
  exact nearest_ne_nan _ _ _

theorem div_ne_nan (hx : x.isFinite = true) (hy : y.isFinite = true) (nonzero : y.compareInt? 0 ≠ some .eq) :
    x.div y ≠ nan := by
  cases x with
  | nan => cases hx
  | infinite => cases hx
  | finite s m d h =>
      cases y with
      | nan => cases hy
      | infinite => cases hy
      | finite t n e k =>
          have divisor : n ≠ 0 := by
            rintro rfl
            apply nonzero
            rw [compareInt?_of_isFinite rfl, toReal_finite, Nat.cast_zero, zero_mul, neg_zero, ite_self, Int.cast_zero,
              compare_eq_iff_eq.mpr rfl]
          rw [div, if_neg divisor]
          exact nearest_ne_nan _ _ _

theorem sqrt_ne_nan (hx : x.isFinite = true) (sign : x.compareInt? 0 ≠ some .lt) : x.sqrt ≠ nan := by
  cases x with
  | nan => cases hx
  | infinite => cases hx
  | finite s m e h =>
      rw [sqrt]
      split_ifs with zero negative
      · exact Double.noConfusion
      · subst negative
        have below : (finite true m e h).compareInt? 0 = some .lt := by
          rw [compareInt?_of_isFinite rfl, toReal_finite, if_pos rfl, Option.some.injEq, compare_lt_iff_lt,
            Int.cast_zero, neg_lt_zero]
          exact mul_pos (Nat.cast_pos.mpr (Nat.pos_of_ne_zero zero)) (zpow_pos two_pos e)
        exact absurd below sign
      · exact ofScaled_ne_nan _ _ _
      · exact ofScaled_ne_nan _ _ _

end Surd.Double
