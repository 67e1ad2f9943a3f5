import Surd.Proofs.Double.Identity
import Surd.Proofs.Number.Finite

/-!
# Normalisation of numbers

Normalisation takes a double for the whole number that it rounds to if their distance, rounded, is below the tolerance
times the size of the double, rounded. Rounding keeps the order, so the distance itself is below the tolerance times the
size itself. What is not negligible stays so, and what was normalised is not changed again.
-/

namespace Surd

/-! ## Rounding to whole numbers -/

theorem Double.abs_round?_sub_le {x : Double} {n : Int} (h : x.round? = some n) : |x.toReal - n| ≤ 1 / 2 := by
  cases x with
  | nan => cases h
  | infinite => cases h
  | finite s m e fits =>
      have near := abs_roundDiv_sub_le (scaleUp m e) (scaleDown_pos e)
      rw [scaleUp_div_scaleDown, abs_sub_comm] at near
      obtain rfl : (if s then -(roundDiv (scaleUp m e) (scaleDown e) : Int)
        else roundDiv (scaleUp m e) (scaleDown e)) = n := Option.some.inj h
      rw [toReal_finite]
      cases s with
      | true =>
          rw [if_pos rfl, if_pos rfl, Int.cast_neg, Int.cast_natCast, ← abs_neg]
          rwa [neg_sub, neg_sub_neg, ← abs_neg, neg_sub] at *
      | false => rwa [if_neg Bool.false_ne_true, if_neg Bool.false_ne_true, Int.cast_natCast]

namespace Number

variable {a : Number} {x y : Double} {n : Int}

/-! ## The tolerance -/

/-- The scale of the tolerance is the size of the double, or one below one. -/
theorem toReal_scale (hx : x.isFinite = true) :
    (if (Double.ofInt 1).compare? x.abs == some .lt then x.abs else Double.ofInt 1).isFinite = true ∧
      (if (Double.ofInt 1).compare? x.abs == some .lt then x.abs else Double.ofInt 1).toReal = max 1 |x.toReal| := by
  obtain ⟨hone, one⟩ := Double.ofInt_exact (n := 1) (by decide)
  have hsize := (Double.isFinite_abs x).trans hx
  have larger : ((Double.ofInt 1).compare? x.abs == some .lt) = true ↔ 1 < |x.toReal| := by
    rw [Double.compare?_of_isFinite hone hsize, one, Int.cast_one, Double.toReal_abs, beq_iff_eq, Option.some.injEq,
      compare_lt_iff_lt]
  split
  · rename_i above
    exact ⟨hsize, (Double.toReal_abs x).trans (max_eq_right (larger.mp above).le).symm⟩
  · rename_i below
    rw [larger, not_lt] at below
    exact ⟨hone, one.trans (by rw [max_eq_left below, Int.cast_one])⟩

/-- A rounded distance below a rounded product means a distance below the product. -/
theorem abs_sub_lt_of_compare? {t z : Double} (hx : x.isFinite = true) (hy : y.isFinite = true)
    (ht : t.isFinite = true) (hz : z.isFinite = true) (distance : |x.toReal - y.toReal| < Double.greatest.toReal)
    (near : (x.sub y).abs.compare? (t.mul z) = some .lt) : |x.toReal - y.toReal| < |t.toReal * z.toReal| := by
  obtain ⟨num, den, hd, size, product⟩ := Double.exists_mul_eq_nearest ht hz
  obtain ⟨s, k, e, sum, difference⟩ := Double.exists_add_eq_ofScaled hx ((Double.isFinite_neg y).trans hy)
  have size' : ((scaleUp k.natAbs e : Nat) : ℝ) / (scaleDown e : Nat) = |x.toReal - y.toReal| := by
    rw [scaleUp_natAbs_div_scaleDown, sum, Double.toReal_neg, sub_eq_add_neg]
  by_contra! below
  rw [← size, ← size'] at below
  rw [← size'] at distance
  have order := Double.toReal_nearest_mono hd (scaleDown_pos e) below distance
  have finite := Double.isFinite_nearest_of_lt false hd (below.trans_lt distance)
  have finite' := Double.isFinite_nearest_of_lt false (scaleDown_pos e) distance
  have factor : (t.mul z).abs = Double.nearest false num den := by rw [product, Double.abs_nearest]
  rw [Double.sub, difference, Double.abs_ofScaled, Double.compare?_of_isFinite finite'
    (by rw [← Double.isFinite_abs, factor, finite]), Option.some.injEq, compare_lt_iff_lt] at near
  have largest := le_abs_self (t.mul z).toReal
  rw [← Double.toReal_abs, factor] at largest
  linarith

/-- The number is the double itself, or a whole number in its place that is closer to it than the tolerance, which grows
with the size of the double from one on. -/
structure Denoises (a : Number) (x : Double) : Prop where
  kind : a = real x ∨ ∃ n : Int, n.natAbs < 2 ^ 53 ∧ a = int n
  near : |a.toReal - x.toReal| < tolerance.toReal * max 1 |x.toReal|

theorem tolerance_le_mul_max (v : ℝ) : tolerance.toReal ≤ tolerance.toReal * max 1 v :=
  le_mul_of_one_le_right tolerance_pos.le (le_max_left 1 v)

theorem denoises_normalize (hx : x.isFinite = true) : (normalize (real x)).Denoises x := by
  obtain ⟨hscale, scale⟩ := toReal_scale hx
  have positive := tolerance_pos.trans_le (tolerance_le_mul_max |x.toReal|)
  obtain same | ⟨n, whole, small, rounded, near⟩ := normalize_real_cases x
  · refine ⟨.inl same, ?_⟩
    rwa [same, toReal, sub_self, abs_zero]
  · refine ⟨.inr ⟨n, small, whole⟩, ?_⟩
    obtain ⟨hn, value⟩ := Double.ofInt_exact small
    have half := Double.abs_round?_sub_le rounded
    have distance : |x.toReal - (Double.ofInt n).toReal| < Double.greatest.toReal := by
      rw [value]
      refine half.trans_lt (lt_trans ?_ Double.pow_lt_greatest)
      exact one_half_lt_one.trans (one_lt_zpow₀ one_lt_two (by decide))
    have moved := abs_sub_lt_of_compare? hx hn tolerance_isFinite hscale distance near
    rw [value, scale, abs_of_pos positive, abs_sub_comm] at moved
    rw [whole]
    exact moved

/-! ## What is kept -/

theorem bounded_normalize (hx : x.isFinite = true) : (normalize (real x)).Bounded := by
  obtain same | ⟨n, whole, _⟩ := normalize_real_cases x
  · rwa [same]
  · rw [whole]
    exact trivial

/-- A number that is not negligible is not below the tolerance. -/
theorem tolerance_le_abs (h : a.Bounded) (large : a.isNegligible = false) : tolerance.toReal ≤ |a.toReal| := by
  rwa [← Bool.not_eq_true, isNegligible_iff h, not_lt] at large

/-- What is not below the tolerance moves by less than its size. -/
theorem abs_normalize_sub_lt (hx : x.isFinite = true) (large : tolerance.toReal ≤ |x.toReal|) :
    |(normalize (real x)).toReal - x.toReal| < |x.toReal| := by
  refine (denoises_normalize hx).near.trans_le ?_
  obtain below | above := le_total |x.toReal| 1
  · rwa [max_eq_left below, mul_one]
  · rw [max_eq_right above]
    exact mul_le_of_le_one_left (abs_nonneg _) tolerance_bounds.2.le

/-- Normalisation makes nothing zero that is not negligible. -/
theorem isZero_normalize (h : a.isNegligible = false) : a.normalize.isZero = false := by
  cases a with
  | int n =>
      rw [normalize_int, isZero_int, ← isNegligible_int]
      exact h
  | real x =>
      cases x with
      | nan => rfl
      | infinite s => cases s <;> rfl
      | finite s m e fits =>
          have finite : (Double.finite s m e fits).isFinite = true := rfl
          have moved := abs_normalize_sub_lt finite (tolerance_le_abs (bounded_real finite) h)
          rw [← Bool.not_eq_true, isZero_iff (bounded_normalize finite)]
          intro zero
          rw [zero, zero_sub, abs_neg] at moved
          exact moved.false

theorem isNegligible_normalize (h : a.isNegligible = false) : a.normalize.isNegligible = false := by
  cases a with
  | int n => exact h
  | real x =>
      obtain same | ⟨n, whole, _⟩ := normalize_real_cases x
      · rwa [same]
      · have nonzero := isZero_normalize h
        rwa [whole, isZero_int, ← isNegligible_int, ← whole] at nonzero

theorem normalize_normalize (a : Number) : a.normalize.normalize = a.normalize := by
  cases a with
  | int n => rfl
  | real x =>
      obtain same | ⟨n, whole, _⟩ := normalize_real_cases x
      · rw [same, same]
      · rw [whole, normalize_int]

/-- Zero is added to a number that is not negligible without a change. -/
theorem zero_add_of_isNegligible (h : a.isNegligible = false) : add 0 a = .ok a := by
  cases a with
  | int n => exact zero_add_int n
  | real x =>
      have nonzero : x.isFinite = true → x.toReal ≠ 0 := by
        intro hx zero
        rw [← Bool.not_eq_true, isNegligible_real hx, zero, abs_zero] at h
        exact h tolerance_pos
      exact congrArg (fun y => Except.ok (real y)) (Double.ofInt_zero_add nonzero)

/-- A positive double that is not negligible stays positive. -/
theorem toReal_normalize_pos (hx : x.isFinite = true) (large : tolerance.toReal ≤ x.toReal) :
    0 < (normalize (real x)).toReal := by
  have size := abs_of_pos (tolerance_pos.trans_le large)
  have moved := abs_normalize_sub_lt hx (large.trans_eq size.symm)
  rw [size] at moved
  linarith [(abs_lt.mp moved).1]

/-! ## Signs -/

theorem toReal_neg (a : Number) : a.neg.toReal = -a.toReal := by
  cases a with
  | int n => exact Int.cast_neg n
  | real x => exact Double.toReal_neg x

/-- A number times one or minus one is itself or its opposite. -/
theorem sign_mul (p : Prop) [Decidable p] (h : a.Bounded) :
    mul (int (if p then -1 else 1)) a = .ok (if p then a.neg else a) := by
  cases a with
  | int n =>
      rw [mul_int]
      split
      · rw [Int.neg_one_mul, neg_int]
      · rw [Int.one_mul]
  | real x =>
      split
      · exact congrArg (fun y => Except.ok (real y)) (Double.ofInt_neg_one_mul h)
      · exact congrArg (fun y => Except.ok (real y)) (Double.ofInt_one_mul h)

end Number

end Surd
