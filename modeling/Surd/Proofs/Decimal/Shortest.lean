import Surd.Proofs.Decimal.Size

/-!
# The fewest digits that read back

Seventeen digits are enough for every finite double, so the decimal that is written for one is always found by its test
and is read back as the double. It has eighteen digits at most.
-/

namespace Surd.Decimal

variable {d : Decimal} {x : Double} {s : Bool} {num den m : Nat} {e : Int}

/-! ## Grids -/

/-- A quotient that is scaled down by a power of ten. -/
theorem div_scaled_ten (num den : Nat) (grid : Int) :
    ((num * 10 ^ (-grid).toNat : Nat) : ℝ) / (den * 10 ^ grid.toNat : Nat) = num / den / 10 ^ grid := by
  have down : ((10 ^ (-grid).toNat : Nat) : ℝ) ≠ 0 := by positivity
  have up := (div_eq_iff down).mp (scaled_div den grid)
  rw [up, Nat.cast_mul, mul_div_mul_right _ _ down, div_div]

theorem scaled_ten_pos (hd : 0 < den) (grid : Int) : 0 < den * 10 ^ grid.toNat :=
  Nat.mul_pos hd (Nat.pow_pos (by decide))

/-- The decimal on a grid is half a step away from the quotient at most. -/
theorem abs_size_onGrid_sub_le (s : Bool) (num : Nat) (hd : 0 < den) (grid : Int) :
    |(onGrid s num den grid).size - num / den| ≤ 10 ^ grid / 2 := by
  have power : (0 : ℝ) < 10 ^ grid := zpow_pos ten_pos _
  have near := abs_roundDiv_sub_le (num * 10 ^ (-grid).toNat) (scaled_ten_pos hd grid)
  rw [div_scaled_ten] at near
  have scaled : (onGrid s num den grid).size - num / den =
      ((onGrid s num den grid).coefficient - num / den / 10 ^ grid) * 10 ^ grid := by
    rw [sub_mul, div_mul_cancel₀ _ power.ne']
    rfl
  rw [scaled, abs_mul, abs_of_pos power]
  calc _ ≤ 1 / 2 * (10 : ℝ) ^ grid := mul_le_mul_of_nonneg_right near power.le
    _ = 10 ^ grid / 2 := one_div_mul_eq_div _ _

/-- On the grid for a number of digits a quotient has that many digits, or is the next power of ten. -/
theorem coefficient_onGrid_le (s : Bool) (hn : 0 < num) (hd : 0 < den) (digits : Nat) :
    (onGrid s num den (floorLog10 num den + 1 - digits)).coefficient ≤ 10 ^ digits := by
  apply roundDiv_le (scaled_ten_pos hd _)
  rw [div_scaled_ten, div_lt_iff₀ (zpow_pos ten_pos _), Nat.cast_pow, Nat.cast_ofNat, ← zpow_natCast,
    ← zpow_add₀ ten_pos.ne', add_sub_cancel]
  exact (floorLog10_spec hn hd).2

/-! ## Seventeen digits -/

theorem two_zpow_le_ten_zpow {k : Int} (hk : 0 ≤ k) : (2 : ℝ) ^ (3 * k) ≤ 10 ^ k := by
  rw [zpow_mul]
  exact zpow_le_zpow_left₀ hk (by norm_num) (by norm_num)

/-- The sizes of doubles lie within the powers of ten that are formed. -/
theorem leading_bounds (h : d.coefficient ≠ 0) (fits : Double.Fits m e) (hm : 0 < m)
    (near : |d.size - m * 2 ^ e| < m * 2 ^ e / 2) : -400 ≤ d.leading ∧ d.leading ≤ 400 := by
  have ⟨small, least, most, _⟩ := fits
  obtain ⟨low, high⟩ := leading_spec h
  obtain ⟨below, above⟩ := abs_lt.mp near
  have one : (1 : ℝ) ≤ 10 := by norm_num
  constructor
  · by_contra short
    have floor : (2 : ℝ) ^ (-1074 : Int) ≤ m * 2 ^ e := by
      calc (2 : ℝ) ^ (-1074 : Int) ≤ 2 ^ e := zpow_le_zpow_right₀ one_le_two least
        _ ≤ m * 2 ^ e := le_mul_of_one_le_left (zpow_pos two_pos e).le (by exact_mod_cast hm)
    have tiny : (10 : ℝ) ^ (d.leading + 1) ≤ 2 ^ (-1076 : Int) := by
      calc (10 : ℝ) ^ (d.leading + 1) ≤ 10 ^ (-(400 : Int)) := zpow_le_zpow_right₀ one (by omega)
        _ ≤ 2 ^ (-(3 * 400 : Int)) := by
            rw [zpow_neg, zpow_neg]
            exact inv_anti₀ (zpow_pos two_pos _) (two_zpow_le_ten_zpow (by norm_num))
        _ ≤ 2 ^ (-1076 : Int) := zpow_le_zpow_right₀ one_le_two (by norm_num)
    have quarter : (2 : ℝ) ^ (-1074 : Int) = 4 * 2 ^ (-1076 : Int) := by
      rw [show (-1074 : Int) = 2 + -1076 from rfl, zpow_add₀ two_ne_zero]
      norm_num
    linarith [zpow_pos (two_pos (α := ℝ)) (-1076)]
  · by_contra long
    have ceiling : (m : ℝ) * 2 ^ e ≤ 2 ^ (1024 : Int) := by
      have short : (m : ℝ) ≤ 2 ^ (53 : Int) := by exact_mod_cast small.le
      calc (m : ℝ) * 2 ^ e ≤ 2 ^ (53 : Int) * 2 ^ (971 : Int) :=
            mul_le_mul short (zpow_le_zpow_right₀ one_le_two most) (zpow_pos two_pos e).le (by norm_num)
        _ = 2 ^ (1024 : Int) := by rw [← zpow_add₀ two_ne_zero]; rfl
    have huge : 2 ^ (1025 : Int) ≤ (10 : ℝ) ^ d.leading := by
      calc (2 : ℝ) ^ (1025 : Int) ≤ 2 ^ (3 * 401 : Int) := zpow_le_zpow_right₀ one_le_two (by norm_num)
        _ ≤ 10 ^ (401 : Int) := two_zpow_le_ten_zpow (by norm_num)
        _ ≤ 10 ^ d.leading := zpow_le_zpow_right₀ one (by omega)
    rw [show (1025 : Int) = 1024 + 1 from rfl, zpow_add_one₀ two_ne_zero] at huge
    have positive : (0 : ℝ) < 2 ^ (1024 : Int) := zpow_pos two_pos _
    generalize (2 : ℝ) ^ (1024 : Int) = limit at ceiling huge positive
    linarith

/-- A decimal that is close enough to a double is read as that double. -/
theorem toDouble_eq_of_abs_lt (fits : Double.Fits m e) (hm : 0 < m)
    (near : |d.size - m * 2 ^ e| * 2 ^ 54 < m * 2 ^ e) : d.toDouble = .finite d.negative m e fits := by
  have closer : |d.size - m * 2 ^ e| < m * 2 ^ e / 2 := by
    have := abs_nonneg (d.size - m * 2 ^ e)
    linarith
  have h : d.coefficient ≠ 0 := by
    intro zero
    rw [size_eq_zero.mpr zero, zero_sub, abs_neg, abs_of_nonneg (by positivity)] at closer
    linarith [show (0 : ℝ) ≤ m * 2 ^ e by positivity]
  obtain ⟨least, most⟩ := leading_bounds h fits hm closer
  rw [toDouble, if_neg h, if_neg (by omega), if_neg (by omega)]
  apply Double.nearest_eq_of_abs_lt _ fits hm (Nat.pow_pos (by decide))
  exact (scaled_div d.coefficient d.exponent).symm ▸ near

/-- Rounded to seventeen digits, a double is still closer than the next one. -/
theorem toDouble_onGrid (fits : Double.Fits m e) (hm : 0 < m) (hn : 0 < num) (hd : 0 < den)
    (value : (num : ℝ) / den = m * 2 ^ e) :
    (onGrid s num den (floorLog10 num den + 1 - 17)).toDouble = .finite s m e fits := by
  apply toDouble_eq_of_abs_lt fits hm
  have near := abs_size_onGrid_sub_le s num hd (floorLog10 num den + 1 - 17)
  have low := (floorLog10_spec hn hd).1
  have step : (10 : ℝ) ^ (floorLog10 num den + 1 - 17) * 10 ^ 16 = 10 ^ floorLog10 num den := by
    rw [← zpow_natCast, ← zpow_add₀ ten_pos.ne']
    congr 1
    omega
  rw [value] at near low
  have positive : (0 : ℝ) < 10 ^ (floorLog10 num den + 1 - 17) := zpow_pos ten_pos _
  calc _ ≤ 10 ^ (floorLog10 num den + 1 - 17) / 2 * (2 : ℝ) ^ 54 := mul_le_mul_of_nonneg_right near (by norm_num)
    _ < 10 ^ (floorLog10 num den + 1 - 17) * 10 ^ 16 := by linarith
    _ ≤ m * 2 ^ e := step.trans_le low

/-! ## Reading back -/

/-- What the test for reading back finds is read back, and lies one step above the grid point at most. -/
theorem readingBack?_spec {digits : Nat} (h : readingBack? x digits = some d) :
    d.toDouble = x ∧ d.coefficient ≤
      (onGrid x.negative x.magnitude.1 x.magnitude.2
        (floorLog10 x.magnitude.1 x.magnitude.2 + 1 - digits)).coefficient + 1 := by
  rw [readingBack?] at h
  dsimp only at h
  generalize onGrid x.negative x.magnitude.1 x.magnitude.2
    (floorLog10 x.magnitude.1 x.magnitude.2 + 1 - digits) = point at h ⊢
  have tested : ∀ other : Decimal, (if other.toDouble = x then some other else none) = some d →
      d.toDouble = x ∧ d = other := by
    intro other found
    obtain ⟨back, same⟩ := Option.ite_none_right_eq_some.mp found
    obtain rfl := Option.some.inj same
    exact ⟨back, rfl⟩
  by_cases back : point.toDouble = x
  · rw [if_pos back] at h
    obtain rfl := Option.some.inj h
    exact ⟨back, Nat.le_succ _⟩
  · rw [if_neg back] at h
    by_cases below : point.coefficient * 10 ^ point.exponent.toNat * x.magnitude.2 ≤
        x.magnitude.1 * 10 ^ (-point.exponent).toNat
    · obtain ⟨back, rfl⟩ := tested _ (by rwa [if_pos below] at h)
      exact ⟨back, le_rfl⟩
    · obtain ⟨back, rfl⟩ := tested _ (by rwa [if_neg below] at h)
      exact ⟨back, (Nat.sub_le _ _).trans (Nat.le_succ _)⟩

theorem magnitude_pos (fits : Double.Fits m e) (hm : 0 < m) :
    0 < (Double.finite s m e fits).magnitude.1 ∧ 0 < (Double.finite s m e fits).magnitude.2 :=
  ⟨scaleUp_pos hm e, scaleDown_pos e⟩

/-- One of the first seventeen numbers of digits reads back. -/
theorem exists_readingBack? (fits : Double.Fits m e) (hm : 0 < m) :
    ∃ k < 17, ∃ d, readingBack? (.finite s m e fits) (k + 1) = some d ∧
      shortest (.finite s m e fits) = d.normalize := by
  obtain ⟨hn, hd⟩ := magnitude_pos (s := s) fits hm
  have enough : readingBack? (.finite s m e fits) 17 ≠ none := by
    have back := toDouble_onGrid (s := s) fits hm hn hd (scaleUp_div_scaleDown m e)
    exact fun missing => Option.some_ne_none _ ((if_pos back).symm.trans missing)
  rw [shortest]
  cases found : (List.range 17).findSome? fun k => readingBack? (.finite s m e fits) (k + 1) with
  | none =>
      have missing := List.findSome?_eq_none_iff.mp found 16 (List.mem_range.mpr (by decide))
      exact absurd missing enough
  | some d =>
      obtain ⟨k, hk, back⟩ := List.exists_of_findSome?_eq_some found
      refine ⟨k, List.mem_range.mp hk, d, back, ?_⟩
      dsimp only
      rw [if_neg hn.ne']

/-- The decimal that is written for a finite double is read back as that double. -/
theorem toDouble_shortest (hx : x.isFinite = true) : (shortest x).toDouble = x := by
  cases x with
  | nan => cases hx
  | infinite => cases hx
  | finite s m e fits =>
      obtain rfl | hm := Nat.eq_zero_or_pos m
      · obtain rfl : e = Double.minExponent := fits.2.2.2.resolve_left (by decide)
        rfl
      · obtain ⟨k, _, d, back, written⟩ := exists_readingBack? (s := s) fits hm
        rw [written, toDouble_normalize, (readingBack?_spec back).1]

theorem digitCount_shortest_le (hx : x.isFinite = true) : digitCount (shortest x).coefficient ≤ 18 := by
  cases x with
  | nan => cases hx
  | infinite => cases hx
  | finite s m e fits =>
      obtain rfl | hm := Nat.eq_zero_or_pos m
      · rw [shortest, Double.magnitude, scaleUp, Nat.zero_mul]
        exact (by decide : digitCount 0 ≤ 18)
      · obtain ⟨k, hk, d, back, written⟩ := exists_readingBack? (s := s) fits hm
        obtain ⟨hn, hd⟩ := magnitude_pos (s := s) fits hm
        rw [written, digitCount_le_iff (by decide)]
        have bound := (readingBack?_spec back).2
        have grid := coefficient_onGrid_le (Double.finite s m e fits).negative hn hd (k + 1)
        have shorter : 10 ^ (k + 1) ≤ 10 ^ 17 := Nat.pow_le_pow_right (by decide) (by omega)
        have := coefficient_normalize_le d
        omega

end Surd.Decimal
