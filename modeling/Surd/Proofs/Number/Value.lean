import Surd.Proofs.Double.Nearest
import Surd.Number

/-!
# The real value of a number

Whole numbers compare with each other and with the tolerance as the integers they are: none but zero is negligible,
and normalisation leaves them alone. A double that is a whole number below 2 ^ 53 becomes that whole number.
-/

namespace Surd.Number

/-- The real value of a number; zero where a double is not finite. -/
noncomputable def toReal : Number → ℝ
  | int n => n
  | real x => x.toReal

@[simp] theorem toReal_int (n : Int) : (int n).toReal = n := rfl

/-! ## Whole numbers -/

@[simp] theorem equal_int (m n : Int) : (int m).equal (int n) = decide (m = n) := by
  by_cases h : m = n
  · simp [equal, compare?, h]
  · simp [equal, compare?, h]

@[simp] theorem isZero_int (n : Int) : (int n).isZero = decide (n = 0) := equal_int n 0

@[simp] theorem lt_int (m n : Int) : (int m).lt (int n) = decide (m < n) := by
  by_cases h : m < n
  · simp [lt, compare?, h, compare_lt_iff_lt]
  · simp [lt, compare?, h, compare_lt_iff_lt]

@[simp] theorem le_int (m n : Int) : (int m).le (int n) = decide (m ≤ n) := by
  rw [Bool.eq_iff_iff, le, Bool.or_eq_true, lt_int, ← equal, equal_int, decide_eq_true_eq, decide_eq_true_eq,
    decide_eq_true_eq, ← Int.le_iff_lt_or_eq]

@[simp] theorem isNegative_int (n : Int) : (int n).isNegative = decide (n < 0) := lt_int n 0

/-! ## The tolerance -/

/-- The double nearest to 10 ^ -12. -/
theorem tolerance_eq : ∃ h, tolerance = .finite false 4951760157141521 (-92) h :=
  ⟨by decide, rfl⟩

theorem tolerance_isFinite : tolerance.isFinite = true := rfl

theorem toReal_tolerance : tolerance.toReal = 4951760157141521 * 2 ^ (-92 : Int) := by
  obtain ⟨_, value⟩ := tolerance_eq
  rw [value, Double.toReal_finite, if_neg Bool.false_ne_true, Nat.cast_ofNat]

theorem tolerance_bounds : 2 ^ Double.minExponent ≤ tolerance.toReal ∧ tolerance.toReal < 1 := by
  rw [toReal_tolerance]
  constructor
  · calc (2 : ℝ) ^ Double.minExponent ≤ 2 ^ (-92 : Int) :=
          zpow_le_zpow_right₀ one_le_two (by decide)
      _ ≤ _ := le_mul_of_one_le_left (zpow_pos two_pos _).le (by norm_num)
  · norm_num

theorem tolerance_pos : 0 < tolerance.toReal :=
  (zpow_pos two_pos _).trans_le tolerance_bounds.1

/-- Of the whole numbers only zero is negligible. -/
@[simp] theorem isNegligible_int (n : Int) : (int n).isNegligible = decide (n = 0) := by
  have h := Double.compareInt?_of_isFinite tolerance_isFinite (n.natAbs : Int)
  rw [isNegligible, abs, lt, compare?, h, Option.map_some]
  by_cases hz : n = 0
  · have zero : compare tolerance.toReal ((n.natAbs : Int) : ℝ) = .gt := by
      rw [hz, compare_gt_iff_gt]
      simpa using tolerance_pos
    rw [zero, decide_eq_true hz]
    rfl
  · have one : (1 : ℝ) ≤ ((n.natAbs : Int) : ℝ) := by
      exact_mod_cast Int.natAbs_pos.mpr hz
    have large : compare tolerance.toReal ((n.natAbs : Int) : ℝ) = .lt :=
      compare_lt_iff_lt.mpr (tolerance_bounds.2.trans_le one)
    rw [large, decide_eq_false hz]
    rfl

/-! ## Whole doubles -/

variable {x : Double} {n : Int}

theorem eq_zero_of_isNegligible (hx : x.isFinite = true) (hn : x.toReal = n)
    (h : (real x).isNegligible = true) : n = 0 := by
  rw [isNegligible, abs, lt, compare?, beq_iff_eq,
    Double.compare?_of_isFinite ((Double.isFinite_abs x).trans hx) tolerance_isFinite,
    Option.some.injEq, compare_lt_iff_lt, Double.toReal_abs, hn] at h
  have small : |(n : ℝ)| < 1 := h.trans tolerance_bounds.2
  exact Int.abs_lt_one_iff.mp (by exact_mod_cast small)

/-- A whole double below 2 ^ 53 becomes its whole number: the distance of the two is zero, and the tolerance times
one or more is not. -/
theorem normalize_real (hx : x.isFinite = true) (hn : x.toReal = n) (hlt : n.natAbs < 2 ^ 53) :
    normalize (real x) = int n := by
  obtain ⟨hone, hone'⟩ := Double.ofInt_exact (n := 1) (by decide)
  obtain ⟨hfin, hexact⟩ := Double.ofInt_exact hlt
  obtain ⟨t, hsub⟩ := Double.sub_eq_zero hx hfin (hn.trans hexact.symm)
  rw [normalize, Double.round?_of_toReal hx hn]
  dsimp only
  rw [hsub, if_pos]
  refine ⟨?_, hlt⟩
  rw [beq_iff_eq, show (Double.zero t).abs = Double.zero false from rfl]
  have above : ∀ y : Double, y.isFinite = true → 1 ≤ y.toReal →
      (Double.zero false).compare? (tolerance.mul y) = some .lt := by
    intro y hy hy1
    refine Double.zero_lt_mul tolerance_isFinite hy tolerance_pos (zero_lt_one.trans_le hy1) ?_
    exact tolerance_bounds.1.trans (le_mul_of_one_le_right tolerance_pos.le hy1)
  split
  · rename_i larger
    rw [beq_iff_eq, Double.compare?_of_isFinite hone ((Double.isFinite_abs x).trans hx),
      Option.some.injEq, compare_lt_iff_lt, hone', Int.cast_one] at larger
    exact above _ ((Double.isFinite_abs x).trans hx) larger.le
  · exact above _ hone (by rw [hone', Int.cast_one])

/-! ## Numbers of the value of a whole number -/

variable {a : Number} {v : Int}

/-- A number of the value of a whole number, as the tests on numbers see it. -/
structure IsInt (a : Number) (v : Int) : Prop where
  isZero : a.isZero = decide (v = 0)
  isNegative : a.isNegative = decide (v < 0)
  isWhole : a.isWhole = true
  truncate : a.truncate = .ok v
  abs_truncate : a.abs.truncate = .ok v.natAbs

theorem isInt_int (v : Int) : IsInt (int v) v := ⟨isZero_int v, isNegative_int v, rfl, rfl, rfl⟩

theorem isInt_real (hx : x.isFinite = true) (hv : x.toReal = v) : IsInt (real x) v := by
  have compared : x.compareInt? 0 = some (compare (v : ℝ) 0) := by
    rw [Double.compareInt?_of_isFinite hx, hv, Int.cast_zero]
  have size : x.abs.toReal = (v.natAbs : Int) := by
    rw [Double.toReal_abs, hv, Int.natCast_natAbs, Int.cast_abs]
  constructor
  · show (x.compareInt? 0 == some .eq) = _
    rw [compared, Bool.eq_iff_iff, beq_iff_eq, Option.some.injEq, compare_eq_iff_eq, Int.cast_eq_zero,
      decide_eq_true_iff]
  · show (x.compareInt? 0 == some .lt) = _
    rw [compared, Bool.eq_iff_iff, beq_iff_eq, Option.some.injEq, compare_lt_iff_lt, Int.cast_lt_zero,
      decide_eq_true_iff]
  · exact Double.isWhole_of_toReal hx hv
  · rw [truncate, Double.truncate?_of_toReal hx hv]
  · show (real x.abs).truncate = _
    rw [truncate, Double.truncate?_of_toReal ((Double.isFinite_abs x).trans hx) size]

/-- A number that is equal to a whole number has its value. -/
theorem isInt_of_equal (h : a.equal (int v) = true) : a.IsInt v := by
  cases a with
  | int n =>
      obtain rfl : n = v := of_decide_eq_true ((equal_int n v).symm.trans h)
      exact isInt_int n
  | real x =>
      cases x with
      | nan => cases h
      | infinite s => cases s <;> cases h
      | finite s m e fits =>
          rw [equal, compare?, Double.compareInt?_of_isFinite rfl, beq_iff_eq, Option.some.injEq,
            compare_eq_iff_eq] at h
          exact isInt_real rfl h

/-- A number that is whole and not negative, as the tests on numbers see it. -/
structure IsNat (a : Number) (n : Nat) : Prop where
  isZero : a.isZero = decide (n = 0)
  isNegative : a.isNegative = false
  isWhole : a.isWhole = true
  truncate : a.truncate = .ok n
  abs_truncate : a.abs.truncate = .ok n

theorem isNat_iff_isInt {n : Nat} : IsNat a n ↔ IsInt a n := by
  have zero : decide ((n : Int) = 0) = decide (n = 0) := decide_eq_decide.mpr Int.natCast_eq_zero
  have nonneg : decide ((n : Int) < 0) = false := decide_eq_false (Int.natCast_nonneg n).not_gt
  constructor
  · exact fun h => ⟨h.isZero.trans zero.symm, h.isNegative.trans nonneg.symm, h.isWhole, h.truncate, h.abs_truncate⟩
  · exact fun h => ⟨h.isZero.trans zero, h.isNegative.trans nonneg, h.isWhole, h.truncate, h.abs_truncate⟩

theorem isNat_int (n : Nat) : IsNat (int n) n := isNat_iff_isInt.mpr (isInt_int n)

theorem isNat_real {n : Nat} (hx : x.isFinite = true) (hn : x.toReal = n) : IsNat (real x) n :=
  isNat_iff_isInt.mpr (isInt_real hx (hn.trans (Int.cast_natCast n).symm))

end Surd.Number
