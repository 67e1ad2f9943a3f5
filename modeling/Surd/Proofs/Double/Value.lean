import Surd.Proofs.Rounding
import Surd.Double.Arithmetic
import Mathlib.Algebra.Order.Archimedean.Real.Basic
import Mathlib.Tactic.Linarith
import Mathlib.Tactic.Positivity

/-!
# The real number of a double

A finite double stands for its significand times two to its exponent. Comparison is comparison of these numbers, and
the operations that ask for a whole number find one exactly where there is one.
-/

namespace Surd.Double

/-- The real number of a finite double; zero for the infinities and for "not a number". -/
noncomputable def toReal (x : Double) : ℝ := x.significand * 2 ^ x.exponent

theorem toReal_finite (s : Bool) (m : Nat) (e : Int) (h : Fits m e) :
    (finite s m e h).toReal = if s then -((m : ℝ) * 2 ^ e) else m * 2 ^ e := by
  cases s <;> simp [toReal, significand, exponent]

@[simp] theorem toReal_zero (s : Bool) : (zero s).toReal = 0 := by
  cases s <;> simp [zero, toReal_finite]

@[simp] theorem toReal_abs (x : Double) : x.abs.toReal = |x.toReal| := by
  cases x with
  | nan => simp [abs, toReal, significand]
  | infinite s => simp [abs, toReal, significand]
  | finite s m e h =>
      have size : 0 ≤ (m : ℝ) * 2 ^ e := by positivity
      cases s <;> simp [abs, toReal_finite, abs_of_nonneg size]

@[simp] theorem isFinite_abs (x : Double) : x.abs.isFinite = x.isFinite := by
  cases x <;> rfl

variable {x y : Double}

/-! ## Order -/

/-- Whole numbers that are real numbers scaled by one positive factor compare as those do. -/
private theorem compare_scaled {a b : Int} {r s c : ℝ} (hc : 0 < c) (ha : a * c = r)
    (hb : b * c = s) : compare a b = compare r s := by
  subst ha hb
  obtain hlt | rfl | hgt := lt_trichotomy a b
  · rw [compare_lt_iff_lt.mpr hlt, compare_lt_iff_lt.mpr]
    exact mul_lt_mul_of_pos_right (Int.cast_lt.mpr hlt) hc
  · rw [compare_eq_iff_eq.mpr rfl, compare_eq_iff_eq.mpr rfl]
  · rw [compare_gt_iff_gt.mpr hgt, compare_gt_iff_gt.mpr]
    exact mul_lt_mul_of_pos_right (Int.cast_lt.mpr hgt) hc

theorem compareScaled_eq (a i b j : Int) :
    compareScaled a i b j = compare ((a : ℝ) * 2 ^ i) (b * 2 ^ j) := by
  have two : (2 : ℝ) ≠ 0 := two_ne_zero
  refine compare_scaled (zpow_pos two_pos (min i j)) ?_ ?_
  · push_cast
    rw [mul_assoc, ← zpow_natCast, ← zpow_add₀ two]
    congr 2
    omega
  · push_cast
    rw [mul_assoc, ← zpow_natCast, ← zpow_add₀ two]
    congr 2
    omega

theorem compareInt?_of_isFinite (hx : x.isFinite = true) (n : Int) :
    x.compareInt? n = some (compare x.toReal n) := by
  cases x with
  | nan => cases hx
  | infinite => cases hx
  | finite s m e h =>
      have scaled := compareScaled_eq (finite s m e h).significand e n 0
      rw [zpow_zero, mul_one] at scaled
      exact congrArg some scaled

theorem compare?_of_isFinite (hx : x.isFinite = true) (hy : y.isFinite = true) :
    x.compare? y = some (compare x.toReal y.toReal) := by
  cases x with
  | nan => cases hx
  | infinite => cases hx
  | finite s m e h =>
      cases y with
      | nan => cases hy
      | infinite => cases hy
      | finite t n d k => exact congrArg some (compareScaled_eq _ e _ d)

/-! ## Whole numbers -/

/-- The size of a finite double that is a whole number: scaled up, it is that number scaled up. -/
theorem scaleUp_eq_of_toReal {s : Bool} {m : Nat} {e : Int} {h : Fits m e} {n : Int}
    (hn : (finite s m e h).toReal = n) :
    scaleUp m e = n.natAbs * scaleDown e ∧ (if s then -(n.natAbs : Int) else n.natAbs) = n := by
  have down : (scaleDown e : ℝ) ≠ 0 := by exact_mod_cast (scaleDown_pos e).ne'
  have size : 0 ≤ (m : ℝ) * 2 ^ e := by positivity
  have scaled := (div_eq_iff down).mp (scaleUp_div_scaleDown m e)
  rw [toReal_finite] at hn
  cases s with
  | true =>
      simp only [if_true] at hn ⊢
      have nonpos : (n : ℝ) ≤ 0 := by linarith
      have sign : n ≤ 0 := by exact_mod_cast nonpos
      have habs : (n.natAbs : ℝ) = m * 2 ^ e := by
        rw [Nat.cast_natAbs, abs_of_nonpos sign]
        push_cast
        linarith
      refine ⟨?_, by omega⟩
      rw [← habs] at scaled
      exact_mod_cast scaled
  | false =>
      simp only [Bool.false_eq_true, if_false] at hn ⊢
      have nonneg : (0 : ℝ) ≤ n := by linarith
      have sign : 0 ≤ n := by exact_mod_cast nonneg
      have habs : (n.natAbs : ℝ) = m * 2 ^ e := by
        rw [Nat.cast_natAbs, abs_of_nonneg sign]
        exact hn.symm
      refine ⟨?_, by omega⟩
      rw [← habs] at scaled
      exact_mod_cast scaled

theorem isWhole_of_toReal (hx : x.isFinite = true) {n : Int} (hn : x.toReal = n) :
    x.isWhole = true := by
  cases x with
  | nan => cases hx
  | infinite => cases hx
  | finite s m e h =>
      obtain ⟨hscale, _⟩ := scaleUp_eq_of_toReal hn
      rw [isWhole, beq_iff_eq]
      obtain he | he := le_total 0 e
      · rw [scaleDown, Int.toNat_of_nonpos (by omega), pow_zero, Nat.mod_one]
      · rw [scaleUp, Int.toNat_of_nonpos he, pow_zero, mul_one] at hscale
        rw [hscale, Nat.mul_mod_left]

theorem truncate?_of_toReal (hx : x.isFinite = true) {n : Int} (hn : x.toReal = n) :
    x.truncate? = some n := by
  cases x with
  | nan => cases hx
  | infinite => cases hx
  | finite s m e h =>
      obtain ⟨hscale, hsign⟩ := scaleUp_eq_of_toReal hn
      simp only [truncate?, hscale, Nat.mul_div_cancel _ (scaleDown_pos e), hsign]

theorem round?_of_toReal (hx : x.isFinite = true) {n : Int} (hn : x.toReal = n) :
    x.round? = some n := by
  cases x with
  | nan => cases hx
  | infinite => cases hx
  | finite s m e h =>
      obtain ⟨hscale, hsign⟩ := scaleUp_eq_of_toReal hn
      simp only [round?, hscale, roundDiv_mul (scaleDown_pos e), hsign]

end Surd.Double
