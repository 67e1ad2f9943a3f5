import Surd.Proofs.Double.Finite
import Surd.Decimal.Basic
import Mathlib.Tactic.NormNum

/-!
# The size of a decimal

A decimal stands for its coefficient times ten to its exponent. The double that it is read as follows from this size and
from its sign, whatever the coefficient: trailing zeros make no difference.
-/

namespace Surd

/-! ## Quotients of the same value -/

/-- Rounding looks at the quotient only. -/
theorem roundDiv_mul_mul_right (num den : Nat) {k : Nat} (hk : 0 < k) :
    roundDiv (num * k) (den * k) = roundDiv num den := by
  have twice : 2 * (num % den * k) = 2 * (num % den) * k := (Nat.mul_assoc _ _ _).symm
  simp only [roundDiv, Nat.mul_div_mul_right _ _ hk, Nat.mul_mod_mul_right, twice, Nat.mul_lt_mul_right hk]

theorem roundDiv_congr {num den num' den' : Nat} (hd : 0 < den) (hd' : 0 < den')
    (same : num * den' = num' * den) : roundDiv num den = roundDiv num' den' := by
  rw [← roundDiv_mul_mul_right num den hd', same, Nat.mul_comm den, roundDiv_mul_mul_right num' den' hd]

namespace Double

theorem nearest_congr (s : Bool) {num den num' den' : Nat} (hd : 0 < den) (hd' : 0 < den')
    (same : (num : ℝ) / den = num' / den') : nearest s num den = nearest s num' den' := by
  have hden : (0 : ℝ) < den := by exact_mod_cast hd
  have hden' : (0 : ℝ) < den' := by exact_mod_cast hd'
  have crossed : num * den' = num' * den := by exact_mod_cast (div_eq_div_iff hden.ne' hden'.ne').mp same
  obtain rfl | hn := Nat.eq_zero_or_pos num
  · have zero : num' = 0 := by
      rw [Nat.zero_mul, eq_comm, Nat.mul_eq_zero] at crossed
      exact crossed.resolve_right hd.ne'
    rw [zero, nearest, nearest, if_pos rfl, if_pos rfl]
  · have hn' : 0 < num' := Nat.pos_of_mul_pos_right (crossed ▸ Nat.mul_pos hn hd')
    have place : floorLog2 num den = floorLog2 num' den' := by
      obtain ⟨low, high⟩ := floorLog2_spec hn' hd'
      exact floorLog2_eq hn hd (same ▸ low) (same ▸ high)
    have mantissa : ∀ e : Int,
        roundDiv (num * scaleDown e) (scaleUp den e) = roundDiv (num' * scaleDown e) (scaleUp den' e) := by
      intro e
      apply roundDiv_congr (scaleUp_pos hd e) (scaleUp_pos hd' e)
      rw [scaleUp, scaleUp, Nat.mul_mul_mul_comm, crossed, Nat.mul_mul_mul_comm]
    rw [nearest, nearest, if_neg hn.ne', if_neg hn'.ne', place]
    dsimp only
    rw [mantissa]

end Double

namespace Decimal

variable {d d' : Decimal}

/-! ## Sizes -/

/-- The number without its sign. -/
noncomputable def size (d : Decimal) : ℝ := d.coefficient * 10 ^ d.exponent

theorem ten_pos : (0 : ℝ) < 10 := by norm_num

/-- Scaling a numerator and a denominator together multiply by a power of ten. -/
theorem scaled_div (n : Nat) (e : Int) : ((n * 10 ^ e.toNat : Nat) : ℝ) / (10 ^ (-e).toNat : Nat) = n * 10 ^ e := by
  push_cast
  rw [mul_div_assoc, ← zpow_natCast, ← zpow_natCast, ← zpow_sub₀ ten_pos.ne']
  congr 2
  omega

theorem size_eq_zero : d.size = 0 ↔ d.coefficient = 0 := by
  rw [size, mul_eq_zero, or_iff_left (zpow_pos ten_pos _).ne', Nat.cast_eq_zero]

theorem leading_spec (h : d.coefficient ≠ 0) : 10 ^ d.leading ≤ d.size ∧ d.size < 10 ^ (d.leading + 1) := by
  have power : (0 : ℝ) < 10 ^ d.exponent := zpow_pos ten_pos _
  have count := digitCount_pos d.coefficient
  have first : ((digitCount d.coefficient : Int) - 1) = (digitCount d.coefficient - 1 : Nat) := by
    rw [Nat.cast_sub count, Nat.cast_one]
  rw [leading, first, add_right_comm, zpow_add₀ ten_pos.ne', zpow_add₀ ten_pos.ne', size]
  constructor
  · apply mul_le_mul_of_nonneg_right _ power.le
    rw [zpow_natCast]
    exact_mod_cast pow_digitCount_le h
  · apply mul_lt_mul_of_pos_right _ power
    rw [← first, sub_add_cancel, zpow_natCast]
    exact_mod_cast lt_pow_digitCount d.coefficient

theorem leading_eq (h : d.coefficient ≠ 0) (h' : d'.coefficient ≠ 0) (same : d.size = d'.size) :
    d.leading = d'.leading := by
  obtain ⟨low, high⟩ := leading_spec h
  obtain ⟨low', high'⟩ := leading_spec h'
  have one : (1 : ℝ) < 10 := by norm_num
  have up := (zpow_lt_zpow_iff_right₀ one).mp (low.trans_lt (same ▸ high'))
  have down := (zpow_lt_zpow_iff_right₀ one).mp (low'.trans_lt (same ▸ high))
  omega

/-- Decimals of the same sign and size are read as the same double. -/
theorem toDouble_congr (sign : d.negative = d'.negative) (same : d.size = d'.size) : d.toDouble = d'.toDouble := by
  have zero : d.coefficient = 0 ↔ d'.coefficient = 0 := by rw [← size_eq_zero, same, size_eq_zero]
  by_cases h : d.coefficient = 0
  · rw [toDouble, toDouble, if_pos h, if_pos (zero.mp h), sign]
  · have h' : d'.coefficient ≠ 0 := fun hz => h (zero.mpr hz)
    have nearest := Double.nearest_congr d.negative (Nat.pow_pos (n := (-d.exponent).toNat) (by decide : 0 < 10))
      (Nat.pow_pos (n := (-d'.exponent).toNat) (by decide : 0 < 10))
      ((scaled_div d.coefficient d.exponent).trans (same.trans (scaled_div d'.coefficient d'.exponent).symm))
    rw [toDouble, toDouble, if_neg h, if_neg h', leading_eq h h' same, ← sign]
    exact congrArg _ (congrArg _ nearest)

/-! ## Trailing zeros -/

theorem size_mul_pow (s t : Bool) (k n : Nat) (e : Int) : size ⟨s, k * 10 ^ n, e⟩ = size ⟨t, k, e + n⟩ := by
  rw [size, size]
  push_cast
  rw [zpow_add₀ ten_pos.ne', zpow_natCast, mul_assoc, mul_comm ((10 : ℝ) ^ n)]

theorem toDouble_mul_pow (s : Bool) (k n : Nat) (e : Int) : toDouble ⟨s, k * 10 ^ n, e⟩ = toDouble ⟨s, k, e + n⟩ :=
  toDouble_congr rfl (size_mul_pow s s k n e)

theorem stripZeros_mul (n : Nat) : (stripZeros n).1 * 10 ^ (stripZeros n).2 = n := by
  fun_induction stripZeros n with
  | case1 n h r ih =>
      rw [pow_succ, ← Nat.mul_assoc, ih]
      omega
  | case2 n h => exact Nat.mul_one n

theorem stripZeros_le (n : Nat) : (stripZeros n).1 ≤ n := by
  conv_rhs => rw [← stripZeros_mul n]
  exact Nat.le_mul_of_pos_right _ (Nat.pow_pos (by decide))

@[simp] theorem normalize_negative (d : Decimal) : d.normalize.negative = d.negative := by
  rw [normalize]
  split <;> rfl

theorem exponent_normalize_eq_zero (h : d.normalize.coefficient = 0) : d.normalize.exponent = 0 := by
  rw [normalize] at h ⊢
  split at h
  · rename_i zero
    rw [if_pos zero]
  · rename_i nonzero
    have parts := stripZeros_mul d.coefficient
    rw [show (stripZeros d.coefficient).1 = 0 from h, Nat.zero_mul] at parts
    exact absurd parts.symm nonzero

@[simp] theorem size_normalize (d : Decimal) : d.normalize.size = d.size := by
  rw [normalize]
  split
  · rename_i h
    rw [size, size, h, Nat.cast_zero, zero_mul, zero_mul]
  · have parts : ((stripZeros d.coefficient).1 : ℝ) * 10 ^ (stripZeros d.coefficient).2 = d.coefficient := by
      exact_mod_cast stripZeros_mul d.coefficient
    show ((stripZeros d.coefficient).1 : ℝ) * 10 ^ (d.exponent + (stripZeros d.coefficient).2) = d.size
    rw [size, ← parts, add_comm, zpow_add₀ ten_pos.ne', zpow_natCast, mul_assoc]

theorem toDouble_normalize (d : Decimal) : d.normalize.toDouble = d.toDouble :=
  toDouble_congr (normalize_negative d) (size_normalize d)

theorem coefficient_normalize_le (d : Decimal) : d.normalize.coefficient ≤ d.coefficient := by
  rw [normalize]
  split
  · exact Nat.zero_le _
  · exact stripZeros_le _

end Decimal

end Surd
