import Surd.Rounding
import Mathlib.Algebra.Order.Field.Power
import Mathlib.Data.Real.Basic
import Mathlib.Tactic.Linarith
import Mathlib.Tactic.Positivity
import Mathlib.Tactic.Ring

/-!
# Exact quotients and their rounding

Quotients and powers of two are compared in the reals, where scaling a numerator up and a denominator down is
multiplication by one power of two. There `floorLog2` and `floorLog10` are the whole exponents next below a quotient,
rounding moves a quotient by one half at most, it keeps the order of quotients, and a quotient that is a whole number
rounds to it.
-/

namespace Surd

/-! ## Scaling -/

/-- Scaling up and down together multiply by a power of two. -/
theorem scaleUp_div_scaleDown (n : Nat) (e : Int) :
    (scaleUp n e : ℝ) / scaleDown e = n * 2 ^ e := by
  have two : (2 : ℝ) ≠ 0 := two_ne_zero
  rw [scaleUp, scaleDown]
  push_cast
  rw [mul_div_assoc, ← zpow_natCast, ← zpow_natCast, ← zpow_sub₀ two]
  congr 2
  omega

theorem scaleUp_natAbs_div_scaleDown (n e : Int) :
    ((scaleUp n.natAbs e : Nat) : ℝ) / (scaleDown e : Nat) = |(n : ℝ) * 2 ^ e| := by
  have power : (0 : ℝ) < 2 ^ e := zpow_pos two_pos e
  rw [scaleUp_div_scaleDown, Nat.cast_natAbs, Int.cast_abs, abs_mul, abs_of_pos power]

theorem scaleDown_pos (e : Int) : 0 < scaleDown e := Nat.two_pow_pos _

theorem scaleUp_pos {n : Nat} (hn : 0 < n) (e : Int) : 0 < scaleUp n e :=
  Nat.mul_pos hn (Nat.two_pow_pos _)

/-- A power of two below a quotient, as whole numbers. -/
theorem zpow_le_div_iff {num den : Nat} (hd : 0 < den) (e : Int) :
    (2 : ℝ) ^ e ≤ num / den ↔ scaleUp den e ≤ num * scaleDown e := by
  have hden : (0 : ℝ) < den := by exact_mod_cast hd
  have hdown : (0 : ℝ) < scaleDown e := by exact_mod_cast scaleDown_pos e
  rw [le_div_iff₀ hden, mul_comm, ← scaleUp_div_scaleDown, div_le_iff₀ hdown]
  exact_mod_cast Iff.rfl

/-! ## Binary places -/

theorem log2_le {n : Nat} (hn : n ≠ 0) : (2 : ℝ) ^ (n.log2 : Int) ≤ n := by
  rw [zpow_natCast]
  exact_mod_cast Nat.log2_self_le hn

theorem lt_log2_succ (n : Nat) : (n : ℝ) < 2 ^ ((n.log2 : Int) + 1) := by
  have h : (n : ℝ) < 2 ^ (n.log2 + 1) := by exact_mod_cast Nat.lt_log2_self
  exact_mod_cast h

/-- A positive quotient lies between two to its `floorLog2` and the next power of two. -/
theorem floorLog2_spec {num den : Nat} (hn : 0 < num) (hd : 0 < den) :
    (2 : ℝ) ^ floorLog2 num den ≤ num / den ∧ (num : ℝ) / den < 2 ^ (floorLog2 num den + 1) := by
  have two : (0 : ℝ) < 2 := two_pos
  have hden : (0 : ℝ) < den := by exact_mod_cast hd
  have below : (num : ℝ) / den < 2 ^ ((num.log2 : Int) - den.log2 + 1) := by
    rw [div_lt_iff₀ hden]
    calc (num : ℝ) < 2 ^ ((num.log2 : Int) + 1) := lt_log2_succ num
      _ = 2 ^ ((num.log2 : Int) - den.log2 + 1) * 2 ^ (den.log2 : Int) := by
          rw [← zpow_add₀ two.ne']
          congr 1
          omega
      _ ≤ 2 ^ ((num.log2 : Int) - den.log2 + 1) * den :=
          mul_le_mul_of_nonneg_left (log2_le hd.ne') (zpow_pos two _).le
  have above : (2 : ℝ) ^ ((num.log2 : Int) - den.log2 - 1) ≤ num / den := by
    rw [le_div_iff₀ hden]
    calc (2 : ℝ) ^ ((num.log2 : Int) - den.log2 - 1) * den
        ≤ 2 ^ ((num.log2 : Int) - den.log2 - 1) * 2 ^ ((den.log2 : Int) + 1) :=
          mul_le_mul_of_nonneg_left (lt_log2_succ den).le (zpow_pos two _).le
      _ = 2 ^ (num.log2 : Int) := by
          rw [← zpow_add₀ two.ne']
          congr 1
          omega
      _ ≤ num := log2_le hn.ne'
  rw [floorLog2]
  split
  · rename_i fits
    exact ⟨(zpow_le_div_iff hd _).mpr fits, below⟩
  · rename_i tooLarge
    refine ⟨above, ?_⟩
    rw [Int.sub_add_cancel]
    exact lt_of_not_ge fun h => tooLarge ((zpow_le_div_iff hd _).mp h)

/-- The exponent between whose powers of two a quotient lies is its `floorLog2`. -/
theorem floorLog2_eq {num den : Nat} (hn : 0 < num) (hd : 0 < den) {k : Int}
    (low : (2 : ℝ) ^ k ≤ num / den) (high : (num : ℝ) / den < 2 ^ (k + 1)) :
    floorLog2 num den = k := by
  obtain ⟨low', high'⟩ := floorLog2_spec hn hd
  have one : (1 : ℝ) < 2 := one_lt_two
  have up := (zpow_lt_zpow_iff_right₀ one).mp (low.trans_lt high')
  have down := (zpow_lt_zpow_iff_right₀ one).mp (low'.trans_lt high)
  omega

/-! ## Decimal places -/

theorem digitCount_pos (n : Nat) : 0 < digitCount n := Nat.length_toDigits_pos

theorem digitCount_le_iff {n k : Nat} (hk : 0 < k) : digitCount n ≤ k ↔ n < 10 ^ k :=
  Nat.length_toDigits_le_iff (by decide) hk

theorem lt_pow_digitCount (n : Nat) : n < 10 ^ digitCount n := (digitCount_le_iff (digitCount_pos n)).mp le_rfl

/-- A positive number has its first digit in the place that its digits are counted up to. -/
theorem pow_digitCount_le {n : Nat} (hn : n ≠ 0) : 10 ^ (digitCount n - 1) ≤ n := by
  by_contra short
  obtain zero | pos := Nat.eq_zero_or_pos (digitCount n - 1)
  · rw [zero, pow_zero] at short
    omega
  · have fewer := (digitCount_le_iff pos).mpr (not_le.mp short)
    have := digitCount_pos n
    omega

/-- A positive quotient lies between ten to its `floorLog10` and the next power of ten. -/
theorem floorLog10_spec {num den : Nat} (hn : 0 < num) (hd : 0 < den) :
    (10 : ℝ) ^ floorLog10 num den ≤ num / den ∧ (num : ℝ) / den < 10 ^ (floorLog10 num den + 1) := by
  have ten : (0 : ℝ) < 10 := by norm_num
  have hden : (0 : ℝ) < den := by exact_mod_cast hd
  let shift := digitCount den
  let whole := num * 10 ^ shift / den
  have reached : 0 < whole := by
    refine Nat.div_pos ((lt_pow_digitCount den).le.trans ?_) hd
    exact Nat.le_mul_of_pos_left _ hn
  have count := digitCount_pos whole
  -- Scaled up, the quotient and its whole part have the same number of digits.
  have low : (10 : ℝ) ^ (digitCount whole - 1) ≤ num * 10 ^ shift / den := by
    rw [le_div_iff₀ hden]
    exact_mod_cast (Nat.le_div_iff_mul_le hd).mp (pow_digitCount_le reached.ne')
  have high : (num : ℝ) * 10 ^ shift / den < 10 ^ digitCount whole := by
    rw [div_lt_iff₀ hden]
    exact_mod_cast (Nat.div_lt_iff_lt_mul hd).mp (lt_pow_digitCount whole)
  have scaled : (num : ℝ) * 10 ^ shift / den = num / den * 10 ^ (shift : Int) := by
    rw [zpow_natCast, mul_div_right_comm]
  have place : floorLog10 num den = (digitCount whole - 1 : Nat) - (shift : Int) := by
    rw [floorLog10, Nat.cast_sub count, Nat.cast_one]
  have next : floorLog10 num den + 1 = (digitCount whole : Nat) - (shift : Int) := by
    rw [place]
    omega
  rw [next, place, zpow_sub₀ ten.ne', zpow_sub₀ ten.ne', div_le_iff₀ (zpow_pos ten _),
    lt_div_iff₀ (zpow_pos ten _), ← scaled, zpow_natCast, zpow_natCast]
  exact ⟨low, high⟩

/-! ## Rounding -/

theorem roundDiv_mul {den : Nat} (hd : 0 < den) (n : Nat) : roundDiv (n * den) den = n := by
  rw [roundDiv, Nat.mul_div_cancel n hd, Nat.mul_mod_left, if_pos (by omega)]

/-- A whole number below a quotient stays below it when it is rounded. -/
theorem le_roundDiv {num den n : Nat} (hd : 0 < den) (h : (n : ℝ) ≤ num / den) :
    n ≤ roundDiv num den := by
  have hden : (0 : ℝ) < den := by exact_mod_cast hd
  have scaled : n * den ≤ num := by exact_mod_cast (le_div_iff₀ hden).mp h
  have whole : n ≤ num / den := (Nat.le_div_iff_mul_le hd).mpr scaled
  rw [roundDiv]
  split
  · exact whole
  · split <;> omega

theorem roundDiv_le {num den n : Nat} (hd : 0 < den) (h : (num : ℝ) / den < n) :
    roundDiv num den ≤ n := by
  have hden : (0 : ℝ) < den := by exact_mod_cast hd
  have scaled : num < n * den := by exact_mod_cast (div_lt_iff₀ hden).mp h
  have whole : num / den < n := (Nat.div_lt_iff_lt_mul hd).mpr scaled
  rw [roundDiv]
  split
  · exact whole.le
  · split <;> omega

/-- A quotient of one or more does not round to zero. -/
theorem roundDiv_pos {num den : Nat} (hd : 0 < den) (h : den ≤ num) : 0 < roundDiv num den := by
  have hden : (0 : ℝ) < den := by exact_mod_cast hd
  refine le_roundDiv hd ?_
  rw [Nat.cast_one, le_div_iff₀ hden, one_mul]
  exact_mod_cast h

/-- Rounding goes down to the whole part if at most half of the divisor is left, and up if at least half is. -/
theorem roundDiv_cases (num den : Nat) :
    roundDiv num den = num / den ∧ 2 * (num % den) ≤ den ∨
      roundDiv num den = num / den + 1 ∧ den ≤ 2 * (num % den) := by
  rw [roundDiv]
  split
  · exact .inl ⟨rfl, by omega⟩
  · split
    · exact .inr ⟨rfl, by omega⟩
    · obtain even | odd := Nat.mod_two_eq_zero_or_one (num / den)
      · exact .inl ⟨by rw [even, Nat.add_zero], by omega⟩
      · exact .inr ⟨by rw [odd], by omega⟩

/-- A quotient is its whole part and what is left of it. -/
theorem div_eq_whole_add (num : Nat) {den : Nat} (hd : 0 < den) :
    (num : ℝ) / den = (num / den : Nat) + (num % den : Nat) / den := by
  have hden : (0 : ℝ) < den := by exact_mod_cast hd
  have whole : (num : ℝ) = den * (num / den : Nat) + (num % den : Nat) := by
    exact_mod_cast (Nat.div_add_mod num den).symm
  calc (num : ℝ) / den = (den * (num / den : Nat) + (num % den : Nat)) / den := congrArg (· / (den : ℝ)) whole
    _ = (num / den : Nat) + (num % den : Nat) / den := by rw [add_div, mul_div_cancel_left₀ _ hden.ne']

/-- Rounding moves a quotient by one half at most. -/
theorem abs_roundDiv_sub_le (num : Nat) {den : Nat} (hd : 0 < den) :
    |(roundDiv num den : ℝ) - num / den| ≤ 1 / 2 := by
  have hden : (0 : ℝ) < den := by exact_mod_cast hd
  have nonneg : (0 : ℝ) ≤ (num % den : Nat) / den := by positivity
  rw [div_eq_whole_add num hd, abs_le]
  obtain ⟨down, near⟩ | ⟨up, near⟩ := roundDiv_cases num den
  · have near : ((num % den : Nat) : ℝ) / den ≤ 1 / 2 := by
      rw [div_le_iff₀ hden]
      have : 2 * ((num % den : Nat) : ℝ) ≤ den := by exact_mod_cast near
      linarith
    rw [down]
    constructor <;> linarith
  · have near : 1 / 2 ≤ ((num % den : Nat) : ℝ) / den := by
      rw [le_div_iff₀ hden]
      have : (den : ℝ) ≤ 2 * (num % den : Nat) := by exact_mod_cast near
      linarith
    have small : ((num % den : Nat) : ℝ) / den < 1 := by
      rw [div_lt_one hden]
      exact_mod_cast Nat.mod_lt num hd
    rw [up]
    push_cast
    constructor <;> linarith

/-- A quotient that rounding moves by one half is rounded to an even number. -/
theorem even_roundDiv (num : Nat) {den : Nat} (hd : 0 < den)
    (tie : |(roundDiv num den : ℝ) - num / den| = 1 / 2) : Even (roundDiv num den) := by
  have hden : (0 : ℝ) < den := by exact_mod_cast hd
  have left : ((num % den : Nat) : ℝ) / den = 1 / 2 := by
    have nonneg : (0 : ℝ) ≤ (num % den : Nat) / den := by positivity
    have small : ((num % den : Nat) : ℝ) / den < 1 := by
      rw [div_lt_one hden]
      exact_mod_cast Nat.mod_lt num hd
    rw [div_eq_whole_add num hd] at tie
    obtain ⟨down, _⟩ | ⟨up, _⟩ := roundDiv_cases num den
    · rw [down, sub_add_cancel_left, abs_neg, abs_of_nonneg nonneg] at tie
      exact tie
    · rw [up, Nat.cast_add, Nat.cast_one, add_sub_add_left_eq_sub, abs_of_pos (sub_pos.mpr small)] at tie
      linarith
  have half : 2 * (num % den) = den := by
    rw [div_eq_div_iff hden.ne' two_ne_zero, one_mul, mul_comm] at left
    exact_mod_cast left
  rw [roundDiv, if_neg half.not_lt, if_neg half.not_gt, Nat.even_iff]
  omega

/-- Rounding keeps the order of quotients: where a greater one came out below, both would lie half way between the
results, and one of these is odd. -/
theorem roundDiv_mono {num den num' den' : Nat} (hd : 0 < den) (hd' : 0 < den')
    (h : (num : ℝ) / den ≤ num' / den') : roundDiv num den ≤ roundDiv num' den' := by
  by_contra! above
  have apart : (roundDiv num' den' : ℝ) + 1 ≤ roundDiv num den := by exact_mod_cast above
  obtain ⟨_, near⟩ := abs_le.mp (abs_roundDiv_sub_le num hd)
  obtain ⟨near', _⟩ := abs_le.mp (abs_roundDiv_sub_le num' hd')
  have tie : (roundDiv num den : ℝ) - num / den = 1 / 2 := by linarith
  have tie' : (roundDiv num' den' : ℝ) - num' / den' = -(1 / 2) := by linarith
  have even := even_roundDiv num hd (by rw [tie, abs_of_pos one_half_pos])
  have even' := even_roundDiv num' hd' (by rw [tie', abs_neg, abs_of_pos one_half_pos])
  have next : roundDiv num den = roundDiv num' den' + 1 := by
    have value : (roundDiv num den : ℝ) = roundDiv num' den' + 1 := by linarith
    exact_mod_cast value
  rw [next, Nat.even_add_one] at even
  exact even even'

/-- No whole number is closer to a quotient than the one that it is rounded to. -/
theorem abs_roundDiv_sub_le_abs (num : Nat) {den : Nat} (hd : 0 < den) (n : Int) :
    |(roundDiv num den : ℝ) - num / den| ≤ |(n : ℝ) - num / den| := by
  have near := abs_roundDiv_sub_le num hd
  obtain same | other := eq_or_ne n (roundDiv num den)
  · rw [same, Int.cast_natCast]
  · have apart : (1 : ℝ) ≤ |(n : ℝ) - roundDiv num den| := by
      exact_mod_cast Int.one_le_abs (sub_ne_zero.mpr other)
    have through := abs_sub_le (n : ℝ) (num / den) (roundDiv num den)
    rw [abs_sub_comm ((num : ℝ) / den)] at through
    linarith

/-- A quotient less than one half away from a whole number rounds to it. -/
theorem roundDiv_eq_of_abs_lt {num den n : Nat} (hd : 0 < den) (h : |(num : ℝ) / den - n| < 1 / 2) :
    roundDiv num den = n := by
  have near : |(roundDiv num den : ℝ) - n| < 1 := by
    calc |(roundDiv num den : ℝ) - n|
        ≤ |(roundDiv num den : ℝ) - num / den| + |(num : ℝ) / den - n| := abs_sub_le _ _ _
      _ < 1 := by linarith [abs_roundDiv_sub_le num hd]
  have whole : |(roundDiv num den : Int) - n| < 1 := by exact_mod_cast near
  have equal := Int.abs_lt_one_iff.mp whole
  omega

/-- A quotient that is scaled down by a power of two. -/
theorem div_scaled (num den : Nat) (e : Int) :
    ((num * scaleDown e : Nat) : ℝ) / (scaleUp den e : Nat) = num / den / 2 ^ e := by
  have down : (scaleDown e : ℝ) ≠ 0 := by exact_mod_cast (scaleDown_pos e).ne'
  have up := (div_eq_iff down).mp (scaleUp_div_scaleDown den e)
  rw [Nat.cast_mul, up, mul_div_mul_right _ _ down, div_div]

/-- A quotient less than half of a power of two away from a multiple of it rounds to that multiple. -/
theorem roundDiv_scaled_eq {num den n : Nat} {e : Int} (hd : 0 < den)
    (h : |(num : ℝ) / den - n * 2 ^ e| < 2 ^ e / 2) : roundDiv (num * scaleDown e) (scaleUp den e) = n := by
  have power : (0 : ℝ) < 2 ^ e := zpow_pos two_pos e
  have scaled : (num : ℝ) / den - n * 2 ^ e = (num / den / 2 ^ e - n) * 2 ^ e := by
    rw [sub_mul, div_mul_cancel₀ _ power.ne']
  apply roundDiv_eq_of_abs_lt (scaleUp_pos hd e)
  rw [div_scaled]
  rw [scaled, abs_mul, abs_of_pos power] at h
  exact lt_of_mul_lt_mul_right (h.trans_eq (by rw [one_div_mul_eq_div])) power.le

theorem pow_le_roundDiv_scaled {num den k : Nat} {e : Int} (hd : 0 < den)
    (h : (2 : ℝ) ^ (k + e) ≤ num / den) : 2 ^ k ≤ roundDiv (num * scaleDown e) (scaleUp den e) := by
  apply le_roundDiv (scaleUp_pos hd e)
  rw [div_scaled, le_div_iff₀ (zpow_pos two_pos e), Nat.cast_pow, Nat.cast_ofNat, ← zpow_natCast,
    ← zpow_add₀ two_ne_zero]
  exact h

theorem roundDiv_scaled_le_pow {num den k : Nat} {e : Int} (hd : 0 < den)
    (h : (num : ℝ) / den < 2 ^ (k + e)) : roundDiv (num * scaleDown e) (scaleUp den e) ≤ 2 ^ k := by
  apply roundDiv_le (scaleUp_pos hd e)
  rw [div_scaled, div_lt_iff₀ (zpow_pos two_pos e), Nat.cast_pow, Nat.cast_ofNat, ← zpow_natCast,
    ← zpow_add₀ two_ne_zero]
  exact h

/-! ## Square roots -/

/-- The whole part of a square root is not above the root, and the next number is. -/
theorem floorSqrt_spec (n : Nat) :
    floorSqrt n * floorSqrt n ≤ n ∧ n < (floorSqrt n + 1) * (floorSqrt n + 1) := by
  fun_induction floorSqrt n with
  | case1 => exact ⟨le_rfl, Nat.one_pos⟩
  | case2 n hn r fits ih =>
      refine ⟨fits, ?_⟩
      have quarter : n / 4 + 1 ≤ (floorSqrt (n / 4) + 1) * (floorSqrt (n / 4) + 1) := ih.2
      calc n < 4 * (n / 4 + 1) := by omega
        _ ≤ 4 * ((floorSqrt (n / 4) + 1) * (floorSqrt (n / 4) + 1)) := Nat.mul_le_mul_left 4 quarter
        _ = (r + 1 + 1) * (r + 1 + 1) := by simp only [r]; ring
  | case3 n hn r above ih =>
      refine ⟨?_, not_le.mp above⟩
      calc r * r = 4 * (floorSqrt (n / 4) * floorSqrt (n / 4)) := by simp only [r]; ring
        _ ≤ 4 * (n / 4) := Nat.mul_le_mul_left 4 ih.1
        _ ≤ n := Nat.mul_div_le n 4

end Surd
