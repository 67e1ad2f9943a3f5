import Surd.Proofs.Double.Error
import Surd.Proofs.Number.Normalize

/-!
# Rounded quotients

The quotient of whole numbers is a double with an error of half a unit in its last place. It is the quotient itself
where that is whole, and multiplied again by the divisor it is so close to the dividend that the dividend is the whole
number it is normalised to, as long as that has less than 52 digits.
-/

namespace Surd.Number

variable {a d n m : ℤ} {y z : Double} {v : ℝ}

/-! ## Sizes of whole numbers -/

theorem one_le_abs (ha : a ≠ 0) : (1 : ℝ) ≤ |(a : ℝ)| := by exact_mod_cast Int.one_le_abs ha

theorem abs_le_of_natAbs {k : ℕ} (h : a.natAbs ≤ k) : |(a : ℝ)| ≤ k := by
  rw [← Int.cast_abs, Int.abs_eq_natAbs]
  exact_mod_cast h

theorem abs_lt_of_natAbs {k : ℕ} (h : a.natAbs < 2 ^ k) : |(a : ℝ)| < 2 ^ k := by
  rw [← Int.cast_abs, Int.abs_eq_natAbs]
  exact_mod_cast h

/-- Whole numbers that are less than one apart are the same. -/
theorem eq_of_abs_sub_lt_one (h : |(m : ℝ) - n| < 1) : m = n := by
  have whole : |m - n| < 1 := by exact_mod_cast h
  exact sub_eq_zero.mp (Int.abs_lt_one_iff.mp whole)

/-! ## The quotient -/

/-- The double of a quotient of whole numbers. -/
def fraction (a d : ℤ) : Double := Double.nearest (decide (a < 0) != decide (d < 0)) a.natAbs d.natAbs

theorem quotient_eq (hd : d ≠ 0) (finite : (fraction a d).isFinite = true) : quotient a d = .ok (fraction a d) := by
  rw [quotient, if_neg hd]
  exact if_neg (Bool.not_eq_true _ ▸ Double.isInfinite_of_isFinite finite)

theorem abs_div_eq (a d : ℤ) : (a.natAbs : ℝ) / d.natAbs = |(a : ℝ) / d| := by
  rw [abs_div, Nat.cast_natAbs, Nat.cast_natAbs, Int.cast_abs, Int.cast_abs]

theorem signOf_int (n : ℤ) : Double.SignOf (decide (n < 0)) n := by
  obtain below | above := lt_or_ge n 0
  · rw [decide_eq_true below, Double.signOf_true]
    exact_mod_cast below.le
  · rw [decide_eq_false above.not_gt, Double.signOf_false]
    exact_mod_cast above

theorem signOf_div (a d : ℤ) : Double.SignOf (decide (a < 0) != decide (d < 0)) ((a : ℝ) / d) := by
  have inverse : Double.SignOf (decide (d < 0)) (d : ℝ)⁻¹ := by
    have own := signOf_int d
    rw [Double.SignOf] at own ⊢
    split <;> simp_all
  exact (signOf_int a).mul inverse

/-- The size of a quotient is its own bound. -/
theorem bounds_div (ha : a ≠ 0) (hd : d ≠ 0) (small : a.natAbs < 2 ^ 53) (small' : d.natAbs < 2 ^ 53) :
    Double.Bounds |(a : ℝ) / d| ((a : ℝ) / d) := by
  have divisor := one_le_abs hd
  have positive := zero_lt_one.trans_le divisor
  apply Double.Bounds.moderate le_rfl
  · rw [abs_div, le_div_iff₀ positive]
    calc (2 : ℝ) ^ (-64 : Int) * |(d : ℝ)| ≤ 2 ^ (-64 : Int) * 2 ^ 53 :=
          mul_le_mul_of_nonneg_left (abs_lt_of_natAbs small').le (zpow_pos two_pos _).le
      _ ≤ 1 := by norm_num
      _ ≤ |(a : ℝ)| := one_le_abs ha
  · rw [abs_div, div_le_iff₀ positive]
    calc |(a : ℝ)| ≤ 2 ^ 53 := (abs_lt_of_natAbs small).le
      _ ≤ 2 ^ (64 : Int) * 1 := by norm_num
      _ ≤ 2 ^ (64 : Int) * |(d : ℝ)| := mul_le_mul_of_nonneg_left divisor (zpow_pos two_pos _).le

/-- The rounded quotient is half a unit from the quotient at most. -/
theorem near_fraction (ha : a ≠ 0) (hd : d ≠ 0) (small : a.natAbs < 2 ^ 53) (small' : d.natAbs < 2 ^ 53) :
    (fraction a d).Near (a / d) |(a : ℝ) / d| :=
  Double.near_nearest_of_abs _ (Int.natAbs_pos.mpr hd) (abs_div_eq a d) (bounds_div ha hd small small') (signOf_div a d)

theorem toReal_fraction_ne_zero (ha : a ≠ 0) (hd : d ≠ 0) (small : a.natAbs < 2 ^ 53) (small' : d.natAbs < 2 ^ 53) :
    (fraction a d).toReal ≠ 0 := by
  intro zero
  have error := (near_fraction ha hd small small').error
  have positive : 0 < |(a : ℝ) / d| := abs_pos.mpr (div_ne_zero (Int.cast_ne_zero.mpr ha) (Int.cast_ne_zero.mpr hd))
  rw [zero, zero_sub, abs_neg] at error
  norm_num at error
  linarith

theorem div_natAbs_lt (hd : d ≠ 0) (small : a.natAbs < 2 ^ 53) : (a.natAbs : ℝ) / d.natAbs < 2 ^ (1023 : Int) := by
  have positive : 1 ≤ d.natAbs := Int.natAbs_pos.mpr hd
  have bounded : (a.natAbs : ℝ) < 2 ^ 53 := by exact_mod_cast small
  calc (a.natAbs : ℝ) / d.natAbs ≤ a.natAbs := div_le_self (Nat.cast_nonneg _) (by exact_mod_cast positive)
    _ < 2 ^ (53 : Int) := bounded
    _ < 2 ^ (1023 : Int) := zpow_lt_zpow_right₀ one_lt_two (by decide)

theorem isFinite_fraction (hd : d ≠ 0) (small : a.natAbs < 2 ^ 53) : (fraction a d).isFinite = true :=
  Double.isFinite_nearest _ (Int.natAbs_pos.mpr hd) (div_natAbs_lt hd small)

/-- A value with its own sign. -/
theorem sign_abs {s : Bool} (h : Double.SignOf s v) : (if s then -|v| else |v|) = v := by
  cases s with
  | true => rw [if_pos rfl, abs_of_nonpos (Double.signOf_true.mp h), neg_neg]
  | false => rw [if_neg Bool.false_ne_true, abs_of_nonneg (Double.signOf_false.mp h)]

/-- A quotient that is whole is not rounded. -/
theorem toReal_fraction (hd : d ≠ 0) (hn : n.natAbs < 2 ^ 53) :
    (fraction (n * d) d).isFinite = true ∧ (fraction (n * d) d).toReal = n := by
  obtain ⟨finite, value⟩ := Double.ofInt_exact hn
  have whole : ((n * d : ℤ) : ℝ) / d = n := by
    rw [Int.cast_mul, mul_div_cancel_right₀ _ (Int.cast_ne_zero.mpr hd)]
  have size := abs_div_eq (n * d) d
  have sign := signOf_div (n * d) d
  rw [whole] at sign
  rw [whole, ← value] at size
  obtain ⟨finite', value'⟩ := Double.nearest_of_eq (decide (n * d < 0) != decide (d < 0)) (Int.natAbs_pos.mpr hd)
    finite size
  refine ⟨finite', value'.trans ?_⟩
  rw [value, sign_abs sign]

theorem tolerance_nearest : tolerance = Double.nearest false 1 (10 ^ 12) := by
  decide +kernel

/-- A quotient that is not below the tolerance is not rounded below it. -/
theorem isNegligible_fraction (hd : d ≠ 0) (small : a.natAbs < 2 ^ 53) (large : d.natAbs ≤ 10 ^ 12 * a.natAbs) :
    (real (fraction a d)).isNegligible = false := by
  have finite := isFinite_fraction hd small
  have positive : 0 < d.natAbs := Int.natAbs_pos.mpr hd
  have divisor : (0 : ℝ) < d.natAbs := by exact_mod_cast positive
  have order : ((1 : ℕ) : ℝ) / (10 ^ 12 : ℕ) ≤ a.natAbs / d.natAbs := by
    rw [div_le_div_iff₀ (by norm_num) divisor, Nat.cast_one, one_mul, mul_comm]
    exact_mod_cast large
  have bounded := (div_natAbs_lt hd small).trans Double.pow_lt_greatest
  have rounded := Double.toReal_nearest_mono (by decide) positive order bounded
  rw [← Bool.not_eq_true, isNegligible_real finite, not_lt, tolerance_nearest, ← Double.toReal_abs, fraction,
    Double.abs_nearest]
  exact rounded

/-! ## The quotient times the divisor -/

/-- The rounded quotient times the divisor, rounded again, is two half units from the dividend at most. -/
theorem fraction_mul_error (ha : a ≠ 0) (hd : d ≠ 0) (small : a.natAbs < 2 ^ 53) (small' : d.natAbs < 2 ^ 53) :
    ((fraction a d).mul (.ofInt d)).isFinite = true ∧
      |((fraction a d).mul (.ofInt d)).toReal - a| ≤ |(a : ℝ)| * (2 ^ (-52 : Int) + 2 ^ (-106 : Int)) := by
  obtain ⟨finite, error⟩ := near_fraction ha hd small small'
  obtain ⟨hfactor, factor⟩ := Double.ofInt_exact small'
  have divisor : (d : ℝ) ≠ 0 := Int.cast_ne_zero.mpr hd
  have product : |(fraction a d).toReal * d - a| ≤ |(a : ℝ)| * 2 ^ (-53 : Int) := by
    calc |(fraction a d).toReal * d - a| = |(fraction a d).toReal - a / d| * |(d : ℝ)| := by
          rw [← abs_mul, sub_mul, div_mul_cancel₀ _ divisor]
      _ ≤ |(a : ℝ) / d| * 2 ^ (-53 : Int) * |(d : ℝ)| := mul_le_mul_of_nonneg_right error (abs_nonneg _)
      _ = |(a : ℝ)| * 2 ^ (-53 : Int) := by
          rw [mul_right_comm, ← abs_mul, div_mul_cancel₀ _ divisor]
  have bounds : Double.Bounds (|(a : ℝ)| * (1 + 2 ^ (-53 : Int))) ((fraction a d).toReal * d) := by
    apply Double.Bounds.moderate
    · have size := abs_sub_abs_le_abs_sub ((fraction a d).toReal * d) (a : ℝ)
      linarith
    · exact (by norm_num : (2 : ℝ) ^ (-64 : Int) ≤ 1 * (1 + 2 ^ (-53 : Int))).trans
        (mul_le_mul_of_nonneg_right (one_le_abs ha) (by positivity))
    · exact (mul_le_mul_of_nonneg_right (abs_lt_of_natAbs small).le (by positivity)).trans (by norm_num)
  rw [← factor] at bounds product
  have rounded := Double.near_mul finite hfactor bounds
  refine ⟨rounded.isFinite, ?_⟩
  calc |((fraction a d).mul (.ofInt d)).toReal - a|
      ≤ |((fraction a d).mul (.ofInt d)).toReal - (fraction a d).toReal * (Double.ofInt d).toReal| +
          |(fraction a d).toReal * (Double.ofInt d).toReal - a| := abs_sub_le _ _ _
    _ ≤ |(a : ℝ)| * (1 + 2 ^ (-53 : Int)) * 2 ^ (-53 : Int) + |(a : ℝ)| * 2 ^ (-53 : Int) :=
        add_le_add rounded.error product
    _ = |(a : ℝ)| * (2 ^ (-52 : Int) + 2 ^ (-106 : Int)) := by
        norm_num
        ring

/-! ## Normalisation -/

theorem tolerance_large : 2 ^ (-40 : Int) ≤ tolerance.toReal := by
  rw [toReal_tolerance]
  norm_num

/-- The whole number that a double rounds to is the only one that is closer than a half. -/
theorem round?_of_near (hy : y.isFinite = true) (half : |y.toReal - n| < 1 / 2) : y.round? = some n := by
  obtain ⟨m, rounded⟩ : ∃ m, y.round? = some m := by
    cases y with
    | nan => cases hy
    | infinite => cases hy
    | finite => exact ⟨_, rfl⟩
  have near := Double.abs_round?_sub_le rounded
  have apart : |(m : ℝ) - n| < 1 := by
    calc |(m : ℝ) - n| ≤ |m - y.toReal| + |y.toReal - n| := abs_sub_le _ _ _
      _ < 1 / 2 + 1 / 2 := add_lt_add_of_le_of_lt (abs_sub_comm (m : ℝ) y.toReal ▸ near) half
      _ = 1 := add_halves 1
  rw [rounded, eq_of_abs_sub_lt_one apart]

/-- The rounded distance of two doubles is hardly greater than their distance. -/
theorem abs_sub_le_of_near (hy : y.isFinite = true) (hz : z.isFinite = true)
    (near : |y.toReal - z.toReal| ≤ v) (least : 2 ^ (-64 : Int) ≤ v) (most : v ≤ 2 ^ (64 : Int)) :
    (y.sub z).isFinite = true ∧ |(y.sub z).toReal| ≤ 2 * v := by
  have rounded := Double.near_sub hy hz (.moderate near least most)
  have positive : 0 < v := (zpow_pos two_pos _).trans_le least
  have part : v * 2 ^ (-53 : Int) ≤ v := mul_le_of_le_one_right positive.le (by norm_num)
  exact ⟨rounded.isFinite, by linarith [rounded.abs_le]⟩

/-- The rounded tolerance for a size is more than half of the tolerance for it. -/
theorem le_tolerance_mul (hz : z.isFinite = true) (least : 1 ≤ z.toReal)
    (most : z.toReal ≤ 2 ^ (64 : Int)) :
    (tolerance.mul z).isFinite = true ∧ z.toReal * 2 ^ (-41 : Int) ≤ (tolerance.mul z).toReal := by
  have nonneg : 0 ≤ z.toReal := zero_le_one.trans least
  have large : 2 ^ (-40 : Int) * z.toReal ≤ tolerance.toReal * z.toReal :=
    mul_le_mul_of_nonneg_right tolerance_large nonneg
  have small : tolerance.toReal * z.toReal ≤ z.toReal := mul_le_of_le_one_left nonneg tolerance_bounds.2.le
  have bounds : Double.Bounds (tolerance.toReal * z.toReal) (tolerance.toReal * z.toReal) := by
    apply Double.Bounds.moderate
    · exact (abs_of_nonneg (mul_nonneg tolerance_pos.le nonneg)).le
    · exact le_trans (by norm_num; linarith) large
    · exact small.trans most
  have rounded := Double.near_mul tolerance_isFinite hz bounds
  refine ⟨rounded.isFinite, ?_⟩
  have error := (abs_le.mp rounded.error).1
  norm_num at error large ⊢
  linarith

/-- A double that is very close to a whole number becomes that. -/
theorem normalize_of_near (hy : y.isFinite = true) (hn : n ≠ 0) (small : n.natAbs < 2 ^ 53)
    (half : |y.toReal - n| < 1 / 2) (near : |y.toReal - n| ≤ |(n : ℝ)| * 2 ^ (-51 : Int)) :
    normalize (real y) = int n := by
  obtain ⟨hwhole, whole⟩ := Double.ofInt_exact small
  obtain ⟨hscale, scale⟩ := toReal_scale hy
  rw [normalize, round?_of_near hy half]
  dsimp only
  generalize (if (Double.ofInt 1).compare? y.abs == some .lt then y.abs else Double.ofInt 1) = z at hscale scale ⊢
  have large := one_le_abs hn
  have bounded := abs_lt_of_natAbs small
  have below := abs_sub_abs_le_abs_sub (n : ℝ) y.toReal
  have above := abs_sub_abs_le_abs_sub y.toReal (n : ℝ)
  rw [abs_sub_comm] at below
  obtain ⟨hdistance, distance⟩ := abs_sub_le_of_near hy hwhole (v := |(n : ℝ)| * 2 ^ (-51 : Int)) (by rwa [whole])
    (by norm_num; linarith) (by norm_num; linarith)
  have least : 1 ≤ z.toReal := scale ▸ le_max_left _ _
  have size : |y.toReal| ≤ z.toReal := scale ▸ le_max_right _ _
  obtain ⟨hlimit, limit⟩ := le_tolerance_mul hscale least (by
    rw [scale]
    exact max_le (by norm_num) (by norm_num at near ⊢; linarith))
  refine if_pos ⟨?_, small⟩
  rw [beq_iff_eq, Double.compare?_of_isFinite ((Double.isFinite_abs _).trans hdistance) hlimit, Option.some.injEq,
    compare_lt_iff_lt, Double.toReal_abs]
  norm_num at near distance limit
  linarith

/-! ## There and back -/

/-- The rounded quotient times the divisor is never taken for zero. -/
theorem isNegligible_fraction_mul (ha : a ≠ 0) (hd : d ≠ 0) (small : a.natAbs < 2 ^ 53) (small' : d.natAbs < 2 ^ 53) :
    (real ((fraction a d).mul (.ofInt d))).isNegligible = false := by
  obtain ⟨finite, error⟩ := fraction_mul_error ha hd small small'
  have large := one_le_abs ha
  have below := abs_sub_abs_le_abs_sub (a : ℝ) ((fraction a d).mul (.ofInt d)).toReal
  rw [abs_sub_comm] at below
  rw [← Bool.not_eq_true, isNegligible_real finite, not_lt, toReal_tolerance]
  norm_num at error ⊢
  linarith

/-- Below 2 ^ 51 the rounded quotient times the divisor is normalised to the dividend. -/
theorem normalize_fraction_mul (ha : a ≠ 0) (hd : d ≠ 0) (small : a.natAbs < 2 ^ 51) (small' : d.natAbs < 2 ^ 53) :
    normalize (real ((fraction a d).mul (.ofInt d))) = int a := by
  have small'' : a.natAbs < 2 ^ 53 := small.trans (by decide)
  obtain ⟨finite, error⟩ := fraction_mul_error ha hd small'' small'
  have most : |(a : ℝ)| ≤ 2 ^ 51 - 1 := by
    have below : |a| ≤ 2 ^ 51 - 1 := by
      rw [Int.abs_eq_natAbs]
      omega
    exact_mod_cast below
  apply normalize_of_near finite ha small''
  · refine error.trans_lt ?_
    norm_num at most ⊢
    linarith
  · exact error.trans (mul_le_mul_of_nonneg_left (by norm_num) (abs_nonneg _))

/-- The tolerance for a quotient, times the divisor, is the tolerance for the greater of divisor and dividend. -/
theorem max_fraction_mul_le {k : ℝ} (ha : a ≠ 0) (hd : d ≠ 0) (small : a.natAbs < 2 ^ 53) (small' : d.natAbs < 2 ^ 53)
    (bounded : |(a : ℝ)| ≤ k) (bounded' : |(d : ℝ)| ≤ k) :
    max 1 |(fraction a d).toReal| * |(d : ℝ)| ≤ k * (1 + 2 ^ (-53 : Int)) := by
  have divisor : (d : ℝ) ≠ 0 := Int.cast_ne_zero.mpr hd
  have error := (near_fraction ha hd small small').error
  have above := abs_sub_abs_le_abs_sub (fraction a d).toReal ((a : ℝ) / d)
  have size : |(fraction a d).toReal| ≤ |(a : ℝ) / d| * (1 + 2 ^ (-53 : Int)) := by linarith
  rw [max_mul_of_nonneg _ _ (abs_nonneg _), one_mul]
  apply max_le
  · exact bounded'.trans (le_mul_of_one_le_right ((abs_nonneg _).trans bounded) (by norm_num))
  · calc |(fraction a d).toReal| * |(d : ℝ)| ≤ |(a : ℝ) / d| * (1 + 2 ^ (-53 : Int)) * |(d : ℝ)| :=
          mul_le_mul_of_nonneg_right size (abs_nonneg _)
      _ = |(a : ℝ)| * (1 + 2 ^ (-53 : Int)) := by rw [mul_right_comm, ← abs_mul, div_mul_cancel₀ _ divisor]
      _ ≤ k * (1 + 2 ^ (-53 : Int)) := mul_le_mul_of_nonneg_right bounded (by norm_num)

/-- With dividend and divisor up to 9 · 10 ^ 11 a rounded quotient is taken for a whole number only if it is one. -/
theorem eq_of_normalize_fraction (ha : a ≠ 0) (hd : d ≠ 0) (small : a.natAbs ≤ 9 * 10 ^ 11)
    (small' : d.natAbs ≤ 9 * 10 ^ 11) (whole : normalize (real (fraction a d)) = int n) : n * d = a := by
  have divisor : (d : ℝ) ≠ 0 := Int.cast_ne_zero.mpr hd
  have bounded : |(a : ℝ)| ≤ 9 * 10 ^ 11 := (abs_le_of_natAbs small).trans_eq (by norm_num)
  have bounded' : |(d : ℝ)| ≤ 9 * 10 ^ 11 := (abs_le_of_natAbs small').trans_eq (by norm_num)
  have short : a.natAbs < 2 ^ 53 := small.trans_lt (by decide)
  have short' : d.natAbs < 2 ^ 53 := small'.trans_lt (by decide)
  obtain ⟨finite, error⟩ := near_fraction ha hd short short'
  have near := (denoises_normalize finite).near
  rw [whole, toReal_int] at near
  have scale := max_fraction_mul_le ha hd short short' bounded bounded'
  apply eq_of_abs_sub_lt_one
  calc |((n * d : ℤ) : ℝ) - a| = |(n : ℝ) - a / d| * |(d : ℝ)| := by
        rw [← abs_mul, sub_mul, div_mul_cancel₀ _ divisor, Int.cast_mul]
    _ ≤ (|(n : ℝ) - (fraction a d).toReal| + |(fraction a d).toReal - a / d|) * |(d : ℝ)| :=
        mul_le_mul_of_nonneg_right (abs_sub_le _ _ _) (abs_nonneg _)
    _ ≤ (tolerance.toReal * max 1 |(fraction a d).toReal| + |(a : ℝ) / d| * 2 ^ (-53 : Int)) * |(d : ℝ)| :=
        mul_le_mul_of_nonneg_right (add_le_add near.le error) (abs_nonneg _)
    _ = tolerance.toReal * (max 1 |(fraction a d).toReal| * |(d : ℝ)|) + |(a : ℝ)| * 2 ^ (-53 : Int) := by
        rw [add_mul, mul_assoc, mul_right_comm |(a : ℝ) / d|, ← abs_mul, div_mul_cancel₀ _ divisor]
    _ ≤ tolerance.toReal * (9 * 10 ^ 11 * (1 + 2 ^ (-53 : Int))) + 9 * 10 ^ 11 * 2 ^ (-53 : Int) :=
        add_le_add (mul_le_mul_of_nonneg_left scale tolerance_pos.le) (mul_le_mul_of_nonneg_right bounded (by norm_num))
    _ < 1 := by
        rw [toReal_tolerance]
        norm_num

end Surd.Number
