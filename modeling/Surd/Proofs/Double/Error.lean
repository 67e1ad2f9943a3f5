import Surd.Proofs.Double.Finite
import Mathlib.Analysis.Real.Sqrt

/-!
# The error of rounding

A quotient is rounded to a whole number of units in its last place. That keeps the order of quotients, and it moves
each by half a unit at most, which is the 2 ^ 53rd part of it as long as it is not tiny. So sums, products and roots
have the relative error 2 ^ -53, roots up to one more unit because their scaled root is cut first; the bounds below are
stated with an upper bound of the exact result, which also covers results that are tiny themselves.
-/

namespace Surd.Double

variable {s : Bool} {num den num' den' : Nat} {x y : Double} {v bound : ℝ}

/-! ## Units in the last place -/

/-- The exponent of the last binary digit that is kept of a quotient. -/
def lastPlace (num den : Nat) : Int := max (floorLog2 num den - 52) minExponent

/-- A quotient in units of its last place, rounded. -/
def units (num den : Nat) : Nat :=
  roundDiv (num * scaleDown (lastPlace num den)) (scaleUp den (lastPlace num den))

@[simp] theorem units_zero (den : Nat) : units 0 den = 0 := by simp [units, roundDiv]

/-- A finite nearest double is the rounded number of units. -/
theorem toReal_nearest (finite : (nearest false num den).isFinite = true) :
    (nearest false num den).toReal = units num den * 2 ^ lastPlace num den := by
  have packed : ∀ {m : Nat} {e : Int}, (pack false m e).isFinite = true → (pack false m e).toReal = m * 2 ^ e := by
    intro m e finite
    rw [pack] at finite ⊢
    split at finite
    · rename_i fits
      rw [dif_pos fits, toReal_finite, if_neg Bool.false_ne_true]
    · cases finite
  obtain rfl | hn := Nat.eq_zero_or_pos num
  · rw [units_zero, nearest, if_pos rfl, toReal_zero, Nat.cast_zero, zero_mul]
  · rw [nearest, if_neg hn.ne'] at finite ⊢
    rw [units, lastPlace]
    dsimp only at finite ⊢
    split at finite
    · rename_i carry
      rw [if_pos carry, packed finite, carry, zpow_add_one₀ two_ne_zero]
      push_cast
      ring
    · rename_i carry
      rw [if_neg carry, packed finite]

theorem toReal_nearest_nonneg (finite : (nearest false num den).isFinite = true) :
    0 ≤ (nearest false num den).toReal := by
  rw [toReal_nearest finite]
  positivity

/-- The size of the result does not depend on the sign. -/
theorem abs_nearest (s : Bool) (num den : Nat) : (nearest s num den).abs = nearest false num den := by
  have packed : ∀ (m : Nat) (e : Int), (pack s m e).abs = pack false m e := by
    intro m e
    rw [pack, pack]
    split <;> rfl
  rw [nearest, nearest]
  split
  · rfl
  · dsimp only
    split <;> exact packed _ _

theorem abs_ofScaled (s : Bool) (n e : Int) :
    (ofScaled s n e).abs = nearest false (scaleUp n.natAbs e) (scaleDown e) := by
  rw [ofScaled]
  split
  · rename_i zero
    have none : scaleUp n.natAbs e = 0 := by rw [zero, Int.natAbs_zero, scaleUp, Nat.zero_mul]
    rw [nearest, if_pos none]
    rfl
  · exact abs_nearest _ _ _

/-! ## Order -/

theorem floorLog2_mono (hn : 0 < num) (hd : 0 < den) (hn' : 0 < num') (hd' : 0 < den')
    (h : (num : ℝ) / den ≤ num' / den') : floorLog2 num den ≤ floorLog2 num' den' := by
  have below := (floorLog2_spec hn hd).1.trans_lt (h.trans_lt (floorLog2_spec hn' hd').2)
  exact Int.lt_add_one_iff.mp ((zpow_lt_zpow_iff_right₀ one_lt_two).mp below)

/-- Rounding keeps the order of quotients. Where the greater one has a greater unit, the other rounds to at most 2 ^ 53
of its own units, and the greater one to at least 2 ^ 52. -/
theorem toReal_nearest_mono (hd : 0 < den) (hd' : 0 < den') (h : (num : ℝ) / den ≤ num' / den')
    (bounded : (num' : ℝ) / den' < greatest.toReal) :
    (nearest false num den).toReal ≤ (nearest false num' den').toReal := by
  have finite := isFinite_nearest_of_lt false hd (h.trans_lt bounded)
  have finite' := isFinite_nearest_of_lt false hd' bounded
  obtain rfl | hn := Nat.eq_zero_or_pos num
  · rw [toReal_nearest finite, units_zero, Nat.cast_zero, zero_mul]
    exact toReal_nearest_nonneg finite'
  have hn' : 0 < num' := by
    have hden : (0 : ℝ) < den := by exact_mod_cast hd
    have hden' : (0 : ℝ) < den' := by exact_mod_cast hd'
    have positive : (0 : ℝ) < num := by exact_mod_cast hn
    have : (0 : ℝ) < num' := (div_pos_iff_of_pos_right hden').mp ((div_pos positive hden).trans_le h)
    exact_mod_cast this
  have places := floorLog2_mono hn hd hn' hd' h
  rw [toReal_nearest finite, toReal_nearest finite', units, units]
  obtain same | less : lastPlace num den = lastPlace num' den' ∨ lastPlace num den + 1 ≤ lastPlace num' den' := by
    rw [lastPlace, lastPlace]
    omega
  · rw [← same]
    have power : (0 : ℝ) < 2 ^ lastPlace num den := zpow_pos two_pos _
    have rounded : units num den ≤
        roundDiv (num' * scaleDown (lastPlace num den)) (scaleUp den' (lastPlace num den)) := by
      apply roundDiv_mono (scaleUp_pos hd _) (scaleUp_pos hd' _)
      rw [div_scaled, div_scaled]
      exact div_le_div_of_nonneg_right h power.le
    exact mul_le_mul_of_nonneg_right (by exact_mod_cast rounded) power.le
  · have most : units num den ≤ 2 ^ 53 := by
      apply roundDiv_scaled_le_pow hd
      refine (floorLog2_spec hn hd).2.trans_le (zpow_le_zpow_right₀ one_le_two ?_)
      rw [lastPlace]
      omega
    have least : 2 ^ 52 ≤ units num' den' := by
      apply pow_le_roundDiv_scaled hd'
      refine (zpow_le_zpow_right₀ one_le_two ?_).trans (floorLog2_spec hn' hd').1
      rw [lastPlace] at less ⊢
      rw [lastPlace] at less
      omega
    calc (units num den : ℝ) * 2 ^ lastPlace num den
        ≤ 2 ^ 53 * 2 ^ lastPlace num den :=
          mul_le_mul_of_nonneg_right (by exact_mod_cast most) (zpow_pos two_pos _).le
      _ = 2 ^ 52 * 2 ^ (lastPlace num den + 1) := by
          rw [zpow_add_one₀ two_ne_zero]
          ring
      _ ≤ 2 ^ 52 * 2 ^ lastPlace num' den' :=
          mul_le_mul_of_nonneg_left (zpow_le_zpow_right₀ one_le_two less) (by positivity)
      _ ≤ units num' den' * 2 ^ lastPlace num' den' :=
          mul_le_mul_of_nonneg_right (by exact_mod_cast least) (zpow_pos two_pos _).le

/-! ## Distance -/

/-- Rounding moves a quotient by half a unit at most. -/
theorem abs_toReal_nearest_sub_le (hd : 0 < den) (finite : (nearest false num den).isFinite = true) :
    |(nearest false num den).toReal - num / den| ≤ 2 ^ lastPlace num den / 2 := by
  have power : (0 : ℝ) < 2 ^ lastPlace num den := zpow_pos two_pos _
  have near := abs_roundDiv_sub_le (num * scaleDown (lastPlace num den)) (scaleUp_pos hd (lastPlace num den))
  rw [div_scaled] at near
  calc |(nearest false num den).toReal - num / den|
      = |(units num den : ℝ) - num / den / 2 ^ lastPlace num den| * 2 ^ lastPlace num den := by
        rw [← abs_of_pos power, ← abs_mul, abs_of_pos power, sub_mul, div_mul_cancel₀ _ power.ne',
          toReal_nearest finite]
    _ ≤ 1 / 2 * 2 ^ lastPlace num den := mul_le_mul_of_nonneg_right near power.le
    _ = 2 ^ lastPlace num den / 2 := by ring

/-- A unit is the 2 ^ 52nd part of a quotient at most, unless that is below the least double with 53 digits. -/
theorem zpow_lastPlace_le (hn : 0 < num) (hd : 0 < den) (le : (num : ℝ) / den ≤ bound)
    (normal : 2 ^ (-1022 : Int) ≤ bound) : (2 : ℝ) ^ lastPlace num den ≤ bound * 2 ^ (-52 : Int) := by
  have power : (0 : ℝ) < 2 ^ (-52 : Int) := zpow_pos two_pos _
  obtain place | place := max_choice (floorLog2 num den - 52) minExponent
  · rw [lastPlace, place, sub_eq_add_neg, zpow_add₀ two_ne_zero]
    exact mul_le_mul_of_nonneg_right ((floorLog2_spec hn hd).1.trans le) power.le
  · rw [lastPlace, place, minExponent, show (-1074 : Int) = -1022 + -52 from rfl, zpow_add₀ two_ne_zero]
    exact mul_le_mul_of_nonneg_right normal power.le

/-- A value that is rounded to a double with error at most the 2 ^ 53rd part of a bound for it. -/
structure Near (x : Double) (v bound : ℝ) : Prop where
  isFinite : x.isFinite = true
  error : |x.toReal - v| ≤ bound * 2 ^ (-53 : Int)

/-- A bound of a value that is not tiny, and with which the value is in the range of doubles. -/
structure Bounds (bound v : ℝ) : Prop where
  abs_le : |v| ≤ bound
  normal : 2 ^ (-1022 : Int) ≤ bound
  inRange : bound < 2 ^ (1023 : Int)

theorem Bounds.moderate (abs_le : |v| ≤ bound) (least : 2 ^ (-64 : Int) ≤ bound) (most : bound ≤ 2 ^ (64 : Int)) :
    Bounds bound v where
  abs_le := abs_le
  normal := (zpow_le_zpow_right₀ one_le_two (by decide)).trans least
  inRange := most.trans_lt (zpow_lt_zpow_right₀ one_lt_two (by decide))

theorem Near.abs_le (h : x.Near v bound) : |x.toReal| ≤ |v| + bound * 2 ^ (-53 : Int) := by
  have size := abs_sub_abs_le_abs_sub x.toReal v
  linarith [h.error]

theorem near_nearest (hd : 0 < den) (h : Bounds bound (num / den)) :
    (nearest false num den).Near (num / den) bound := by
  have le : (num : ℝ) / den ≤ bound := (le_abs_self _).trans h.abs_le
  have finite := isFinite_nearest false hd (le.trans_lt h.inRange)
  refine ⟨finite, ?_⟩
  obtain rfl | hn := Nat.eq_zero_or_pos num
  · rw [toReal_nearest finite, units_zero, Nat.cast_zero, zero_mul, zero_div, sub_zero, abs_zero]
    exact mul_nonneg ((zpow_pos two_pos _).le.trans h.normal) (zpow_pos two_pos _).le
  · calc |(nearest false num den).toReal - num / den|
        ≤ 2 ^ lastPlace num den / 2 := abs_toReal_nearest_sub_le hd finite
      _ ≤ bound * 2 ^ (-52 : Int) / 2 :=
          div_le_div_of_nonneg_right (zpow_lastPlace_le hn hd le h.normal) two_pos.le
      _ = bound * 2 ^ (-53 : Int) := by
          rw [show (-53 : Int) = -52 + -1 from rfl, zpow_add₀ two_ne_zero, zpow_neg_one]
          ring

/-- The sign is that of the value; a value of zero has either. -/
def SignOf (s : Bool) (v : ℝ) : Prop := if s then v ≤ 0 else 0 ≤ v

theorem signOf_true : SignOf true v ↔ v ≤ 0 := by rw [SignOf, if_pos rfl]

theorem signOf_false : SignOf false v ↔ 0 ≤ v := by rw [SignOf, if_neg Bool.false_ne_true]

theorem signOf_negative (x : Double) : SignOf x.negative x.toReal := by
  cases x with
  | nan => simp [negative, signOf_false, toReal, significand]
  | infinite s => cases s <;> simp [negative, signOf_true, signOf_false, toReal, significand]
  | finite s m e fits =>
      have size : 0 ≤ (m : ℝ) * 2 ^ e := by positivity
      cases s <;> simp [negative, signOf_true, signOf_false, toReal_finite, size]

theorem SignOf.mul {t : Bool} {w : ℝ} (hv : SignOf s v) (hw : SignOf t w) : SignOf (s != t) (v * w) := by
  cases s <;> cases t <;> simp only [signOf_true, signOf_false, bne_self_eq_false, Bool.bne_false, Bool.bne_true,
    Bool.not_false] at hv hw ⊢
  · exact mul_nonneg hv hw
  · exact mul_nonpos_of_nonneg_of_nonpos hv hw
  · exact mul_nonpos_of_nonpos_of_nonneg hv hw
  · exact mul_nonneg_of_nonpos_of_nonpos hv hw

/-- A double has the error of its size if it has the sign of the value. -/
theorem Near.of_abs (h : x.abs.Near |v| bound) (sign : SignOf x.negative v) : x.Near v bound := by
  have own := signOf_negative x
  refine ⟨(isFinite_abs x).symm.trans h.isFinite, ?_⟩
  have error := h.error
  rw [toReal_abs] at error
  cases hs : x.negative with
  | true =>
      rw [hs, signOf_true] at sign own
      rwa [abs_of_nonpos sign, abs_of_nonpos own, ← neg_add', abs_neg, ← sub_neg_eq_add, neg_neg] at error
  | false =>
      rw [hs, signOf_false] at sign own
      rwa [abs_of_nonneg sign, abs_of_nonneg own] at error

/-! ## Operations -/

theorem Bounds.abs (h : Bounds bound v) : Bounds bound |v| := ⟨(abs_abs v).trans_le h.abs_le, h.normal, h.inRange⟩

theorem Bounds.nonneg (h : Bounds bound v) : 0 ≤ bound := (zpow_pos two_pos _).le.trans h.normal

/-- The nearest double of a quotient with the sign of the value. -/
theorem near_nearest_of_abs (s : Bool) (hd : 0 < den) (size : (num : ℝ) / den = |v|) (h : Bounds bound v)
    (sign : SignOf s v) : (nearest s num den).Near v bound := by
  refine Near.of_abs ?_ (by rwa [negative_nearest])
  rw [abs_nearest, ← size]
  exact near_nearest hd (size ▸ h.abs)

theorem near_ofScaled (s : Bool) {n e : Int} (size : (n : ℝ) * 2 ^ e = v) (h : Bounds bound v) :
    (ofScaled s n e).Near v bound := by
  have power : (0 : ℝ) < 2 ^ e := zpow_pos two_pos e
  rw [ofScaled]
  split
  · rename_i zero
    rw [zero, Int.cast_zero, zero_mul] at size
    refine ⟨rfl, ?_⟩
    rw [toReal_zero, ← size, sub_zero, abs_zero]
    exact mul_nonneg h.nonneg (zpow_pos two_pos _).le
  · apply near_nearest_of_abs _ (scaleDown_pos e) _ h
    · rw [← size]
      obtain below | above := lt_or_ge n 0
      · rw [decide_eq_true below, signOf_true]
        exact mul_nonpos_of_nonpos_of_nonneg (by exact_mod_cast below.le) power.le
      · rw [decide_eq_false above.not_gt, signOf_false]
        exact mul_nonneg (by exact_mod_cast above) power.le
    · rw [scaleUp_natAbs_div_scaleDown, size]

theorem near_add (hx : x.isFinite = true) (hy : y.isFinite = true) (h : Bounds bound (x.toReal + y.toReal)) :
    (x.add y).Near (x.toReal + y.toReal) bound := by
  obtain ⟨s, n, e, sum, rounded⟩ := exists_add_eq_ofScaled hx hy
  rw [rounded]
  exact near_ofScaled s sum h

theorem near_sub (hx : x.isFinite = true) (hy : y.isFinite = true) (h : Bounds bound (x.toReal - y.toReal)) :
    (x.sub y).Near (x.toReal - y.toReal) bound := by
  rw [sub_eq_add_neg, ← toReal_neg] at h ⊢
  exact near_add hx ((isFinite_neg y).trans hy) h

theorem near_mul (hx : x.isFinite = true) (hy : y.isFinite = true) (h : Bounds bound (x.toReal * y.toReal)) :
    (x.mul y).Near (x.toReal * y.toReal) bound := by
  obtain ⟨num, den, hd, size, rounded⟩ := exists_mul_eq_nearest hx hy
  rw [rounded]
  exact near_nearest_of_abs _ hd size h ((signOf_negative x).mul (signOf_negative y))

/-- A product that is close to a value stays so when it is rounded. -/
theorem abs_mul_sub_le (hx : x.isFinite = true) (hy : y.isFinite = true)
    (near : |x.toReal * y.toReal - v| ≤ v * 2 ^ (-50 : Int)) (least : 1 ≤ v) (most : v ≤ 2 ^ (60 : Int)) :
    (x.mul y).isFinite = true ∧ |(x.mul y).toReal - v| ≤ v * 2 ^ (-49 : Int) := by
  have nonneg : 0 ≤ v := zero_le_one.trans least
  have bounds : Bounds (2 * v) (x.toReal * y.toReal) := by
    apply Bounds.moderate
    · have part : v * 2 ^ (-50 : Int) ≤ v := mul_le_of_le_one_right nonneg (by norm_num)
      obtain ⟨low, high⟩ := abs_le.mp (near.trans part)
      rw [abs_le]
      constructor <;> linarith
    · exact (zpow_le_one_of_nonpos₀ one_le_two (by decide)).trans (by linarith)
    · exact (mul_le_mul_of_nonneg_left most two_pos.le).trans (by norm_num)
  have rounded := near_mul hx hy bounds
  refine ⟨rounded.isFinite, ?_⟩
  calc |(x.mul y).toReal - v| ≤ |(x.mul y).toReal - x.toReal * y.toReal| + |x.toReal * y.toReal - v| := abs_sub_le _ _ _
    _ ≤ 2 * v * 2 ^ (-53 : Int) + v * 2 ^ (-50 : Int) := add_le_add rounded.error near
    _ = v * (2 * 2 ^ (-53 : Int) + 2 ^ (-50 : Int)) := by ring
    _ ≤ v * 2 ^ (-49 : Int) := mul_le_mul_of_nonneg_left (by norm_num) nonneg

/-! ## Square roots -/

/-- The root of a scaled significand, cut and marked where it is not exact, is half a unit off at most. -/
theorem abs_markedRoot_sub_le (n : Nat) :
    |((2 * floorSqrt n + (if floorSqrt n * floorSqrt n = n then 0 else 1) : Nat) : ℝ) / 2 - √(n : ℝ)| ≤ 1 / 2 := by
  obtain ⟨low, high⟩ := floorSqrt_spec n
  have lower : (floorSqrt n : ℝ) ≤ √(n : ℝ) := by
    apply Real.le_sqrt_of_sq_le
    rw [pow_two]
    exact_mod_cast low
  have upper : √(n : ℝ) ≤ floorSqrt n + 1 := by
    rw [Real.sqrt_le_left (by positivity), pow_two]
    exact_mod_cast high.le
  split
  · rename_i square
    have exact : √(n : ℝ) = floorSqrt n := by
      rw [← square, Nat.cast_mul, Real.sqrt_mul_self (Nat.cast_nonneg _), square]
    rw [exact]
    push_cast
    rw [abs_le]
    constructor <;> linarith
  · push_cast
    rw [abs_le]
    constructor <;> linarith

theorem sqrt_scaled (m shift : Nat) (half : Int) :
    √((m : ℝ) * 2 ^ (shift + 2 * half)) = √((m * 2 ^ shift : Nat) : ℝ) * 2 ^ half := by
  have split : (m : ℝ) * 2 ^ (shift + 2 * half) = (m * 2 ^ shift : Nat) * (2 ^ half) ^ 2 := by
    rw [zpow_add₀ two_ne_zero, zpow_natCast, mul_comm 2 half, zpow_mul, zpow_ofNat]
    push_cast
    ring
  rw [split, Real.sqrt_mul (Nat.cast_nonneg _), Real.sqrt_sq (zpow_pos two_pos _).le]

/-- Scaled by at least 2 ^ 110, a root has so many digits that half a unit is the 2 ^ 56th part of it at most. -/
theorem abs_markedRoot_scaled_sub_le {m shift : Nat} (hm : 0 < m) (long : 110 ≤ shift) (half : Int) {doubled : Nat}
    (marked : |(doubled : ℝ) / 2 - √((m * 2 ^ shift : Nat) : ℝ)| ≤ 1 / 2) :
    |(doubled : ℝ) * 2 ^ (half - 1) - √((m : ℝ) * 2 ^ (shift + 2 * half))| ≤
      √((m : ℝ) * 2 ^ (shift + 2 * half)) * 2 ^ (-56 : Int) := by
  have power : (0 : ℝ) < 2 ^ half := zpow_pos two_pos half
  have large : (2 : ℝ) ^ 55 ≤ √((m * 2 ^ shift : Nat) : ℝ) := by
    apply Real.le_sqrt_of_sq_le
    have reached : (2 ^ 55) ^ 2 ≤ m * 2 ^ shift := by
      calc (2 ^ 55) ^ 2 = 1 * 2 ^ 110 := by norm_num
        _ ≤ m * 2 ^ shift := Nat.mul_le_mul hm (Nat.pow_le_pow_right two_pos long)
    exact_mod_cast reached
  rw [sqrt_scaled]
  calc |(doubled : ℝ) * 2 ^ (half - 1) - √((m * 2 ^ shift : Nat) : ℝ) * 2 ^ half|
      = |(doubled : ℝ) / 2 - √((m * 2 ^ shift : Nat) : ℝ)| * 2 ^ half := by
        rw [← abs_of_pos power, ← abs_mul, abs_of_pos power, zpow_sub_one₀ two_ne_zero]
        congr 1
        ring
    _ ≤ 1 / 2 * 2 ^ half := mul_le_mul_of_nonneg_right marked power.le
    _ = 2 ^ 55 * 2 ^ half * 2 ^ (-56 : Int) := by
        rw [mul_right_comm]
        norm_num
    _ ≤ √((m * 2 ^ shift : Nat) : ℝ) * 2 ^ half * 2 ^ (-56 : Int) :=
        mul_le_mul_of_nonneg_right (mul_le_mul_of_nonneg_right large power.le) (zpow_pos two_pos _).le

/-- The root of a positive double is in the range of doubles with 53 digits. -/
theorem sqrt_bounds (hx : x.isFinite = true) (positive : 0 < x.toReal) :
    2 ^ (-1022 : Int) ≤ √x.toReal ∧ √x.toReal < 2 ^ (512 : Int) := by
  constructor
  · obtain ⟨m, e, fits, rfl, hm, value⟩ := exists_of_toReal_pos hx positive
    apply Real.le_sqrt_of_sq_le
    rw [value, ← zpow_natCast, ← zpow_mul]
    calc (2 : ℝ) ^ (-1022 * (2 : Nat) : Int) ≤ 2 ^ e := zpow_le_zpow_right₀ one_le_two (by
          have := fits.2.1
          rw [minExponent] at this
          omega)
      _ ≤ m * 2 ^ e := le_mul_of_one_le_left (zpow_pos two_pos e).le (by exact_mod_cast hm)
  · rw [Real.sqrt_lt' (zpow_pos two_pos _), ← zpow_natCast, ← zpow_mul,
      show (512 : Int) * (2 : Nat) = (1024 : Nat) from rfl, zpow_natCast]
    exact (le_abs_self _).trans_lt x.abs_toReal_lt

/-- The root of a positive double, which is scaled, cut and rounded once, has two units of error at most. -/
theorem sqrt_error (hx : x.isFinite = true) (positive : 0 < x.toReal) :
    x.sqrt.isFinite = true ∧ |x.sqrt.toReal - √x.toReal| ≤ √x.toReal * 2 ^ (-52 : Int) := by
  obtain ⟨normal, inRange⟩ := sqrt_bounds hx positive
  obtain ⟨m, e, fits, rfl, hm, value⟩ := exists_of_toReal_pos hx positive
  rw [sqrt, if_neg hm.ne', if_neg Bool.false_ne_true]
  obtain ⟨shift, long, place, same⟩ : ∃ shift : Nat, 110 ≤ shift ∧ (shift : Int) + 2 * ((e - shift) / 2) = e ∧
      (if e % 2 = 0 then 110 else 111) = shift := by
    refine ⟨_, ?_, ?_, rfl⟩ <;> split <;> omega
  dsimp only
  rw [same]
  have marked := abs_markedRoot_sub_le (m * 2 ^ shift)
  generalize (e - shift) / 2 = half at place ⊢
  generalize 2 * floorSqrt (m * 2 ^ shift) + _ = doubled at marked ⊢
  have cut := abs_markedRoot_scaled_sub_le hm long half marked
  rw [place, ← value] at cut
  generalize √(finite false m e fits).toReal = root at *
  have positive : 0 < root := (zpow_pos two_pos _).trans_le normal
  have rounded : (ofScaled false (doubled : Nat) (half - 1)).Near (doubled * 2 ^ (half - 1))
      (root * (1 + 2 ^ (-56 : Int))) := by
    refine near_ofScaled false (by rw [Int.cast_natCast]) ⟨?_, ?_, ?_⟩
    · rw [abs_of_nonneg (by positivity), mul_add, mul_one]
      exact sub_le_iff_le_add'.mp ((le_abs_self _).trans cut)
    · exact normal.trans (le_mul_of_one_le_right positive.le (by norm_num))
    · calc root * (1 + 2 ^ (-56 : Int)) < 2 ^ (512 : Int) * 2 :=
            mul_lt_mul inRange (by norm_num) (by positivity) (by positivity)
        _ ≤ 2 ^ (1023 : Int) := by
            rw [← zpow_add_one₀ two_ne_zero]
            exact zpow_le_zpow_right₀ one_le_two (by decide)
  refine ⟨rounded.isFinite, ?_⟩
  calc |(ofScaled false (doubled : Nat) (half - 1)).toReal - root|
      ≤ |(ofScaled false (doubled : Nat) (half - 1)).toReal - doubled * 2 ^ (half - 1)| +
          |(doubled : ℝ) * 2 ^ (half - 1) - root| := abs_sub_le _ _ _
    _ ≤ root * (1 + 2 ^ (-56 : Int)) * 2 ^ (-53 : Int) + root * 2 ^ (-56 : Int) := add_le_add rounded.error cut
    _ = root * ((1 + 2 ^ (-56 : Int)) * 2 ^ (-53 : Int) + 2 ^ (-56 : Int)) := by ring
    _ ≤ root * 2 ^ (-52 : Int) := mul_le_mul_of_nonneg_left (by norm_num) positive.le

end Surd.Double
