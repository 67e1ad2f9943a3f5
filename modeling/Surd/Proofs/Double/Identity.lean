import Surd.Proofs.Double.Error

/-!
# Neutral numbers

A finite double is known by its value and its sign, because each is written in one way only. So adding zero to a double
that is no zero gives it back, and so does a multiplication by one; a multiplication by minus one changes the sign.
-/

namespace Surd.Double

variable {x y : Double}

/-- Two finite doubles of one value and one sign are the same: both are nearest to the value. -/
theorem eq_of_toReal (hx : x.isFinite = true) (hy : y.isFinite = true) (sign : x.negative = y.negative)
    (value : x.toReal = y.toReal) : x = y := by
  cases x with
  | nan => cases hx
  | infinite => cases hx
  | finite s m e fits =>
      cases y with
      | nan => cases hy
      | infinite => cases hy
      | finite t n d fits' =>
          obtain rfl : s = t := sign
          have size : (m : ℝ) * 2 ^ e = n * 2 ^ d := by
            rw [toReal_finite, toReal_finite] at value
            cases s with
            | true => exact neg_injective value
            | false => exact value
          have quotient := scaleUp_div_scaleDown m e
          obtain rfl | hm := Nat.eq_zero_or_pos m
          · obtain rfl : n = 0 := by
              rw [Nat.cast_zero, zero_mul, zero_eq_mul, or_iff_left (zpow_pos two_pos d).ne', Nat.cast_eq_zero] at size
              exact size
            obtain rfl : e = minExponent := fits.2.2.2.resolve_left (by decide)
            obtain rfl : d = minExponent := fits'.2.2.2.resolve_left (by decide)
            rfl
          · have hn : 0 < n := by
              refine Nat.pos_of_ne_zero fun zero => ?_
              rw [zero, Nat.cast_zero, zero_mul] at size
              have : (0 : ℝ) < m * 2 ^ e := by positivity
              exact this.ne' size
            rw [← nearest_eq_finite s fits hm (scaleDown_pos e) quotient,
              nearest_eq_finite s fits' hn (scaleDown_pos e) (quotient.trans size)]

theorem eq_of_toReal_ne_zero (hx : x.isFinite = true) (hy : y.isFinite = true) (nonzero : x.toReal ≠ 0)
    (value : x.toReal = y.toReal) : x = y := by
  refine eq_of_toReal hx hy ?_ value
  rw [Bool.eq_iff_iff, negative_iff hx nonzero, negative_iff hy (value ▸ nonzero), value]

theorem ofInt_zero_add (nonzero : x.isFinite = true → x.toReal ≠ 0) : (ofInt 0).add x = x := by
  cases hx : x.isFinite with
  | false =>
      cases x with
      | nan => rfl
      | infinite => rfl
      | finite => cases hx
  | true =>
      obtain ⟨hzero, value⟩ := ofInt_exact (n := 0) (by decide)
      obtain ⟨finite, same⟩ := add_of_eq hzero hx hx (by rw [value, Int.cast_zero, zero_add])
      exact (eq_of_toReal_ne_zero hx finite (nonzero hx) same.symm).symm

theorem ofInt_one_mul (hx : x.isFinite = true) : (ofInt 1).mul x = x := by
  obtain ⟨hone, value⟩ := ofInt_exact (n := 1) (by decide)
  obtain ⟨finite, same⟩ := mul_of_eq hone hx hx (by rw [value, Int.cast_one, one_mul])
  obtain ⟨num, den, _, _, rounded⟩ := exists_mul_eq_nearest hone hx
  refine eq_of_toReal finite hx ?_ same
  rw [rounded, negative_nearest]
  exact Bool.false_bne _

theorem ofInt_neg_one_mul (hx : x.isFinite = true) : (ofInt (-1)).mul x = x.neg := by
  obtain ⟨hone, value⟩ := ofInt_exact (n := -1) (by decide)
  have hneg := (isFinite_neg x).trans hx
  obtain ⟨finite, same⟩ := mul_of_eq hone hx hneg (by
    rw [value, toReal_neg, Int.cast_neg, Int.cast_one, neg_one_mul])
  obtain ⟨num, den, _, _, rounded⟩ := exists_mul_eq_nearest hone hx
  refine eq_of_toReal finite hneg ?_ same
  rw [rounded, negative_nearest]
  cases x with
  | nan => cases hx
  | infinite => cases hx
  | finite => exact Bool.true_bne _

end Surd.Double
