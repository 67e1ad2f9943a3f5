import Surd.Proofs.Decimal.Shortest
import Surd.Proofs.Returns
import Surd.Decimal.Places

/-!
# Decimals that have a text

Four hundred digits are room for every finite double with up to three hundred decimal places: for the digits in front of
the point, and for those of the rounded number.
-/

namespace Surd

/-- The decimal has few digits, and none of them is beyond the limit in front of the point. -/
structure Decimal.Short (d : Decimal) : Prop where
  digits : digitCount d.coefficient ≤ 100
  front : d.coefficient ≠ 0 → d.leading < digitLimit

variable {d : Decimal} {x : Double} {places : Nat}

theorem Decimal.exponent_neg_of_not_isWhole (h : d.isWhole = false) : d.exponent < 0 := by
  by_contra nonneg
  rw [isWhole, Int.toNat_of_nonpos (by omega), pow_zero, Nat.mod_one] at h
  cases h

theorem Decimal.Short.digitCount_toPlaces_le (h : d.Short) (small : d.exponent < 0) (hp : places ≤ 300) :
    digitCount (d.toPlaces places).coefficient ≤ digitLimit := by
  have hden : 0 < 10 ^ (-(d.exponent + places)).toNat := Nat.pow_pos (by decide)
  have room : 100 + (d.exponent + places).toNat ≤ digitLimit - 1 := by
    rw [digitLimit]
    omega
  have bound : d.coefficient * 10 ^ (d.exponent + places).toNat < 10 ^ (digitLimit - 1) := by
    calc d.coefficient * 10 ^ (d.exponent + places).toNat
        < 10 ^ 100 * 10 ^ (d.exponent + places).toNat :=
          Nat.mul_lt_mul_of_pos_right ((digitCount_le_iff (by decide)).mp h.digits) (Nat.pow_pos (by decide))
      _ = 10 ^ (100 + (d.exponent + places).toNat) := (pow_add _ _ _).symm
      _ ≤ 10 ^ (digitLimit - 1) := Nat.pow_le_pow_right (by decide) room
  rw [digitCount_le_iff (by decide)]
  calc (d.toPlaces places).coefficient ≤ 10 ^ (digitLimit - 1) := by
        refine roundDiv_le hden ?_
        refine (div_le_self (Nat.cast_nonneg _) ?_).trans_lt (Nat.cast_lt.mpr bound)
        exact_mod_cast hden
    _ < 10 ^ digitLimit := Nat.pow_lt_pow_right (by decide) (by decide)

/-- The limit on the digits is not met. -/
theorem Decimal.Short.toFixed_eq (h : d.Short) (hp : places ≤ 300) :
    d.toFixed places = .ok (if d.isWhole then (d.normalize.plain, false)
      else ((d.toPlaces places).normalize.plain, !(d.toPlaces places).sameValue d)) := by
  have digits := h.digits
  rw [toFixed, if_neg fun both => (h.front both.1).not_ge both.2]
  split
  · rfl
  · rename_i fraction
    have small := exponent_neg_of_not_isWhole (Bool.not_eq_true _ ▸ fraction)
    rw [if_neg (by rw [digitLimit]; omega)]
    exact if_neg (h.digitCount_toPlaces_le small hp).not_gt

/-- No finite double has four hundred digits in front of the point. -/
theorem Decimal.leading_shortest_lt (hx : x.isFinite = true) (h : (shortest x).coefficient ≠ 0) :
    (shortest x).leading < digitLimit := by
  have back := toDouble_shortest hx
  generalize shortest x = d at *
  have hden : 0 < 10 ^ (-d.exponent).toNat := Nat.pow_pos (by decide)
  by_contra large
  rw [not_lt, digitLimit] at large
  rw [toDouble, if_neg h] at back
  split at back
  · subst back
    cases hx
  · rw [if_neg (by omega)] at back
    have huge : (2 : ℝ) ^ (1024 : Int) ≤
        (d.coefficient * 10 ^ d.exponent.toNat : Nat) / (10 ^ (-d.exponent).toNat : Nat) := by
      rw [scaled_div]
      calc (2 : ℝ) ^ (1024 : Int) ≤ 2 ^ (3 * 400 : Int) := zpow_le_zpow_right₀ one_le_two (by norm_num)
        _ ≤ 10 ^ (400 : Int) := two_zpow_le_ten_zpow (by norm_num)
        _ ≤ 10 ^ d.leading := zpow_le_zpow_right₀ (by norm_num) large
        _ ≤ d.size := (leading_spec h).1
    generalize d.coefficient * 10 ^ d.exponent.toNat = num at *
    generalize 10 ^ (-d.exponent).toNat = den at *
    have finite : (Double.nearest false num den).isFinite = true := by
      have bounded : (Double.nearest false num den).isInfinite = false := by
        rw [Double.isInfinite_nearest false d.negative, back]
        exact Double.isInfinite_of_isFinite hx
      have number := Double.nearest_ne_nan false num den
      cases nearest : Double.nearest false num den with
      | nan => exact absurd nearest number
      | infinite => simp [nearest, Double.isInfinite] at bounded
      | finite => rfl
    have reached := Double.zpow_le_toReal_nearest (by decide) hden huge finite
    have below := (le_abs_self _).trans_lt (Double.abs_toReal_lt (Double.nearest false num den))
    exact below.not_ge reached

theorem Decimal.short_shortest (hx : x.isFinite = true) : (shortest x).Short where
  digits := (digitCount_shortest_le hx).trans (by decide)
  front := leading_shortest_lt hx

theorem Number.toFixed_real (hx : x.isFinite = true) (places : Nat) :
    toFixed (real x) places = (Decimal.shortest x).toFixed places := by
  cases x with
  | nan => cases hx
  | infinite => cases hx
  | finite => rfl

theorem Number.toFixed_returns (hx : x.isFinite = true) (hp : places ≤ 300) :
    Returns (toFixed (real x) places) fun _ => True := by
  rw [toFixed_real hx, (Decimal.short_shortest hx).toFixed_eq hp]
  exact .ok trivial

end Surd
