import Surd.Proofs.Double.Error
import Surd.Proofs.Radical.Decomposition
import Surd.Proofs.Radical.Recognition

/-!
# Roots are recovered from their doubles

A double that is a root up to a relative error of 2 ^ -52 squares to a double close to a whole number. Below 10 ^ 8 it
is so close that the fraction for it is the whole number itself, whose root is taken exactly and agrees with the double
up to much less than the default precision. So `Radical.recognise` finds the coefficient and the radicand that the double
came from (`Radical.recognise_root`).
-/

namespace Surd

variable {x y q : Double} {N c r : Nat}

theorem defaultPrecision_bounds : defaultPrecision.Bounded ∧ (2 : ℝ) ^ (-14 : Int) ≤ defaultPrecision.toReal := by
  obtain ⟨_, value⟩ : ∃ h, Decimal.toDouble ⟨false, 1, -4⟩ = .finite false 7378697629483821 (-66) h := ⟨by decide, rfl⟩
  rw [defaultPrecision, value]
  refine ⟨rfl, ?_⟩
  rw [Number.toReal, Double.toReal_finite, if_neg Bool.false_ne_true]
  norm_num

/-- The double is a root of the number, of either sign, up to a relative error of 2 ^ -52. -/
structure NearRoot (x : Double) (N : Nat) : Prop where
  isFinite : x.isFinite = true
  near : |(|x.toReal| - √(N : ℝ))| ≤ √(N : ℝ) * 2 ^ (-52 : Int)

namespace NearRoot

theorem neg (h : NearRoot x N) : NearRoot x.neg N where
  isFinite := (Double.isFinite_neg x).trans h.isFinite
  near := by
    rw [Double.toReal_neg, abs_neg]
    exact h.near

theorem bounds (h : NearRoot x N) : √(N : ℝ) / 2 ≤ |x.toReal| ∧ |x.toReal| ≤ 2 * √(N : ℝ) := by
  have nonneg := Real.sqrt_nonneg (N : ℝ)
  have part : √(N : ℝ) * 2 ^ (-52 : Int) ≤ √(N : ℝ) / 2 := by
    rw [div_eq_mul_inv]
    exact mul_le_mul_of_nonneg_left (by norm_num) nonneg
  obtain ⟨low, high⟩ := abs_le.mp (h.near.trans part)
  constructor <;> linarith

/-- The square before it is rounded. -/
theorem abs_mul_self_sub_le (h : NearRoot x N) : |x.toReal * x.toReal - N| ≤ N * 2 ^ (-50 : Int) := by
  have root : √(N : ℝ) * √(N : ℝ) = N := Real.mul_self_sqrt (Nat.cast_nonneg N)
  have nonneg := Real.sqrt_nonneg (N : ℝ)
  have sum : |(|x.toReal| + √(N : ℝ))| ≤ 4 * √(N : ℝ) := by
    have high := h.bounds.2
    rw [abs_of_nonneg (by positivity)]
    linarith
  calc |x.toReal * x.toReal - N| = |(|x.toReal| + √(N : ℝ))| * |(|x.toReal| - √(N : ℝ))| := by
        rw [← abs_mul, ← mul_self_sub_mul_self, abs_mul_abs_self, root]
    _ ≤ 4 * √(N : ℝ) * (√(N : ℝ) * 2 ^ (-52 : Int)) := mul_le_mul sum h.near (abs_nonneg _) (by positivity)
    _ = √(N : ℝ) * √(N : ℝ) * (4 * 2 ^ (-52 : Int)) := by ring
    _ = N * 2 ^ (-50 : Int) := by
        rw [root]
        norm_num

/-- The rounded square. -/
theorem square (h : NearRoot x N) (positive : 1 ≤ N) (small : N < 10 ^ 8) :
    (x.mul x).isFinite = true ∧ |(x.mul x).toReal - N| ≤ 1 / 10 ^ 6 := by
  have one : (1 : ℝ) ≤ N := by exact_mod_cast positive
  have most : (N : ℝ) ≤ 10 ^ 8 := by exact_mod_cast small.le
  obtain ⟨finite, near⟩ := Double.abs_mul_sub_le h.isFinite h.isFinite h.abs_mul_self_sub_le one
    (most.trans (by norm_num))
  refine ⟨finite, near.trans ?_⟩
  calc (N : ℝ) * 2 ^ (-49 : Int) ≤ 10 ^ 8 * 2 ^ (-49 : Int) := mul_le_mul_of_nonneg_right most (by norm_num)
    _ ≤ 1 / 10 ^ 6 := by norm_num

end NearRoot

/-- The square of a root below 10 ^ 8 is in reach. -/
theorem squareInReach?_of_near (hx : x.isFinite = true) (hq : (x.mul x).isFinite = true)
    (near : |(x.mul x).toReal - N| ≤ 1 / 10 ^ 6) (small : N < 10 ^ 8) :
    squareInReach? (.real x) = .ok (some (.real (x.mul x))) := by
  rw [squareInReach?_eq hx, if_neg]
  generalize x.mul x = q at *
  obtain ⟨hd, scaled⟩ := ofInt_maxDenominator
  have most : (N : ℝ) + 1 ≤ 10 ^ 8 := by exact_mod_cast small
  have least : (0 : ℝ) ≤ N := Nat.cast_nonneg N
  obtain ⟨low, high⟩ := abs_le.mp near
  have bounds : Double.Bounds (10 ^ 12) (q.toReal * (Double.ofInt maxDenominator).toReal) := by
    apply Double.Bounds.moderate
    · rw [scaled, abs_le]
      constructor <;> linarith
    · exact (zpow_le_one_of_nonpos₀ one_le_two (by decide)).trans (by norm_num)
    · norm_num
  have rounded := Double.near_mul hq hd bounds
  have error : (10 : ℝ) ^ 12 * 2 ^ (-53 : Int) ≤ 1 := by norm_num
  have above := (abs_le.mp (rounded.error.trans error)).2
  rw [scaled] at above
  rw [Number.lt_iff (Number.bounded_int _) (Number.bounded_real rounded.isFinite), not_lt]
  show (q.mul (Double.ofInt maxDenominator)).toReal ≤ ((1000000000000 : Int) : ℝ)
  push_cast
  linarith

/-! ## The fraction -/

/-- A whole number over one is its double. -/
theorem Number.quotient_one {n : Int} (hn : n.natAbs < 2 ^ 53) :
    Returns (quotient n 1) fun y => y.isFinite = true ∧ y.toReal = n := by
  obtain ⟨finite, value⟩ := Double.ofInt_exact hn
  have size : (n.natAbs : ℝ) / (1 : Nat) = |(Double.ofInt n).toReal| := by
    rw [value, Nat.cast_one, div_one, Nat.cast_natAbs, Int.cast_abs]
  obtain ⟨finite', value'⟩ := Double.nearest_of_eq (decide (n < 0)) Nat.one_pos finite size
  have bounded : n.natAbs < 2 ^ 1023 := hn.trans (pow_lt_pow_right₀ one_lt_two (by decide))
  apply (quotient_returns one_ne_zero bounded).mono
  rintro y ⟨hy, rfl⟩
  have sign : (decide (n < 0) != decide ((1 : Int) < 0)) = decide (n < 0) := Bool.bne_false _
  rw [sign] at hy ⊢
  refine ⟨hy, value'.trans ?_⟩
  rw [value]
  obtain neg | nonneg := lt_or_ge n 0
  · rw [decide_eq_true neg, if_pos rfl, abs_of_neg (by exact_mod_cast neg), neg_neg]
  · rw [decide_eq_false nonneg.not_gt, if_neg Bool.false_ne_true, abs_of_nonneg (by exact_mod_cast nonneg)]

/-- What is compared with the precision is the rounded distance. -/
theorem toReal_miss_lt {z : Double} (hy : y.isFinite = true) (hz : z.isFinite = true)
    (distance : |y.toReal - z.toReal| ≤ 1 / 10 ^ 6) :
    (Number.real (y.sub z)).abs.Bounded ∧ (Number.real (y.sub z)).abs.toReal < defaultPrecision.toReal := by
  have miss := Double.near_sub hy hz (.moderate distance (by norm_num) (by norm_num))
  refine ⟨Number.bounded_abs (Number.bounded_real miss.isFinite), ?_⟩
  rw [Number.toReal_abs]
  calc |(y.sub z).toReal| ≤ |y.toReal - z.toReal| + 1 / 10 ^ 6 * 2 ^ (-53 : Int) := miss.abs_le
    _ ≤ 1 / 10 ^ 6 + 1 / 10 ^ 6 * 2 ^ (-53 : Int) := add_le_add_left distance _
    _ < 2 ^ (-14 : Int) := by norm_num
    _ ≤ defaultPrecision.toReal := defaultPrecision_bounds.2

/-- Of a double next to a whole number the fraction is that number, and it is within the default precision. -/
theorem closeFraction?_of_near (hq : q.isFinite = true) (near : |q.toReal - N| ≤ 1 / 10 ^ 6) (small : N < 10 ^ 8) :
    closeFraction? (.real q) defaultPrecision = .ok (some ⟨N, 1⟩) := by
  obtain ⟨f, exact, hd, lowest, value⟩ := Fraction.ofNumber_returns hq
  have closest := Fraction.limitDenominator_closest hd lowest (show 0 < maxDenominator by decide)
  rw [value] at closest
  have whole : f.limitDenominator maxDenominator = ⟨N, 1⟩ := by
    apply closest.eq_of_near
    rw [Int.cast_natCast, maxDenominator]
    push_cast
    linarith
  obtain ⟨y, quotient, hy, same⟩ := Number.quotient_one (n := N) (by omega)
  have distance : |y.toReal - q.toReal| ≤ 1 / 10 ^ 6 := by rwa [same, Int.cast_natCast, abs_sub_comm]
  obtain ⟨bounded, below⟩ := toReal_miss_lt hy hq distance
  have within : (Number.real (y.sub q)).abs.lt defaultPrecision = true :=
    (Number.lt_iff bounded defaultPrecision_bounds.1).mpr below
  rw [closeFraction?, exact, ok_bind, whole]
  dsimp only
  rw [Fraction.toDouble, show Number.quotient N ((1 : Nat) : Int) = .ok y from quotient, ok_bind]
  show Except.ok (if (Number.real (y.sub q)).abs.lt defaultPrecision = true then some _ else none) = _
  rw [if_pos within]

/-! ## The root -/

/-- Both parts of the root have exact doubles. -/
theorem parts_lt (hc : 1 ≤ c) (hr : 1 ≤ r) (small : c ^ 2 * r < 10 ^ 8) : c < 2 ^ 53 ∧ r < 2 ^ 53 := by
  constructor <;> nlinarith

theorem rootOfNat_sq_mul (hc : 1 ≤ c) (free : Squarefree r) : rootOfNat (c ^ 2 * r) = ((c : Int), (r : Int)) := by
  have positive : c ^ 2 * r ≠ 0 := mul_ne_zero (pow_ne_zero 2 (by omega)) free.ne_zero
  have own : Decomposes (c ^ 2 * r : Nat) c r := by
    refine ⟨?_, ?_, Int.squarefree_natCast.mpr free, ?_⟩
    · rw [Nat.abs_cast]
      push_cast
      rfl
    · exact_mod_cast Nat.pos_of_ne_zero free.ne_zero
    · rw [Int.sign_natCast_of_ne_zero (by omega), Int.sign_natCast_of_ne_zero positive]
  exact Prod.ext_iff.mpr ((decomposes_rootOfNat_cast positive).unique own (by exact_mod_cast positive))

/-- The root of a whole number is its square-free decomposition. -/
theorem Fraction.root_whole (hc : 1 ≤ c) (free : Squarefree r) (small : c ^ 2 * r < 10 ^ 8) :
    Returns (Fraction.root ⟨(c ^ 2 * r : Nat), 1⟩) fun p => p.1.isFinite = true ∧ p.1.toReal = c ∧ p.2 = r := by
  obtain ⟨bounded, _⟩ := parts_lt hc (Nat.pos_of_ne_zero free.ne_zero) small
  obtain ⟨y, quotient, finite, value⟩ := Number.quotient_one (n := c) (by omega)
  have one : rootOfNat 1 = (1, 1) := by decide +kernel
  rw [root, Int.natAbs_natCast, rootOfNat_sq_mul hc free, one]
  show Returns (Number.quotient c 1 >>= fun y => .ok (y, (r : Int) * 1)) _
  rw [quotient, mul_one]
  exact .ok ⟨finite, value.trans (Int.cast_natCast c), rfl⟩

/-! ## The way back -/

theorem sqrt_sq_mul (c r : Nat) : √((c ^ 2 * r : Nat) : ℝ) = c * √(r : ℝ) := by
  push_cast
  rw [Real.sqrt_mul (by positivity), Real.sqrt_sq (Nat.cast_nonneg c)]

/-- The root of a whole number below 10 ^ 8. -/
theorem sqrt_cast_bounds (positive : 1 ≤ N) (small : N < 10 ^ 8) : 1 ≤ √(N : ℝ) ∧ √(N : ℝ) ≤ 10 ^ 4 := by
  constructor
  · exact Real.one_le_sqrt.mpr (by exact_mod_cast positive)
  · apply Real.sqrt_le_iff.mpr ⟨by norm_num, ?_⟩
    have below : (N : ℝ) ≤ 10 ^ 8 := by exact_mod_cast small.le
    exact below.trans (by norm_num)

/-- The root that is computed from its parts. -/
theorem abs_mul_sqrt_sub_le (hy : y.isFinite = true) (value : y.toReal = c) (hc : 1 ≤ c) (hr : 1 ≤ r)
    (small : c ^ 2 * r < 10 ^ 8) :
    (y.mul (Double.ofInt r).sqrt).isFinite = true ∧
      |(y.mul (Double.ofInt r).sqrt).toReal - c * √(r : ℝ)| ≤ c * √(r : ℝ) * 2 ^ (-49 : Int) := by
  obtain ⟨_, bounded⟩ := parts_lt hc hr small
  obtain ⟨finite, radicand⟩ := Double.ofInt_exact (n := r) (by omega)
  rw [Int.cast_natCast] at radicand
  have positive : (0 : ℝ) < r := by exact_mod_cast hr
  obtain ⟨hs, error⟩ := Double.sqrt_error finite (radicand ▸ positive)
  rw [radicand] at error
  obtain ⟨one, most⟩ := sqrt_cast_bounds (Nat.mul_pos (pow_pos hc 2) hr) small
  rw [sqrt_sq_mul] at one most
  apply Double.abs_mul_sub_le hy hs _ one (most.trans (by norm_num))
  calc |y.toReal * (Double.ofInt r).sqrt.toReal - c * √(r : ℝ)| = c * |(Double.ofInt r).sqrt.toReal - √(r : ℝ)| := by
        rw [value, ← mul_sub, abs_mul, Nat.abs_cast]
    _ ≤ c * (√(r : ℝ) * 2 ^ (-52 : Int)) := mul_le_mul_of_nonneg_left error (Nat.cast_nonneg c)
    _ = c * √(r : ℝ) * 2 ^ (-52 : Int) := (mul_assoc _ _ _).symm
    _ ≤ c * √(r : ℝ) * 2 ^ (-50 : Int) := mul_le_mul_of_nonneg_left (by norm_num) (by positivity)

/-- The root is as close to the double as the default precision asks. -/
theorem precision_le_of_near (h : NearRoot x (c ^ 2 * r)) (hy : y.isFinite = true) (value : y.toReal = c) (hc : 1 ≤ c)
    (hr : 1 ≤ r) (small : c ^ 2 * r < 10 ^ 8) :
    defaultPrecision.le (Number.real ((y.mul (Double.ofInt r).sqrt).sub x.abs)).abs = false := by
  obtain ⟨hz, error⟩ := abs_mul_sqrt_sub_le hy value hc hr small
  obtain ⟨_, most⟩ := sqrt_cast_bounds (Nat.mul_pos (pow_pos hc 2) hr) small
  have near := h.near
  rw [sqrt_sq_mul] at most near
  rw [← Double.toReal_abs, abs_sub_comm] at near
  obtain ⟨bounded, below⟩ := toReal_miss_lt hz ((Double.isFinite_abs x).trans h.isFinite) <| by
    calc |(y.mul (Double.ofInt r).sqrt).toReal - x.abs.toReal|
        ≤ |(y.mul (Double.ofInt r).sqrt).toReal - c * √(r : ℝ)| + |c * √(r : ℝ) - x.abs.toReal| := abs_sub_le _ _ _
      _ ≤ c * √(r : ℝ) * 2 ^ (-49 : Int) + c * √(r : ℝ) * 2 ^ (-52 : Int) := add_le_add error near
      _ = c * √(r : ℝ) * (2 ^ (-49 : Int) + 2 ^ (-52 : Int)) := by ring
      _ ≤ 10 ^ 4 * (2 ^ (-49 : Int) + 2 ^ (-52 : Int)) := mul_le_mul_of_nonneg_right most (by norm_num)
      _ ≤ 1 / 10 ^ 6 := by norm_num
  rw [← Bool.not_eq_true, Number.le_iff defaultPrecision_bounds.1 bounded, not_le]
  exact below

/-- A root of either sign is recognised as what it is the root of. -/
theorem Radical.recognise_of_near (h : NearRoot x (c ^ 2 * r)) (hc : 1 ≤ c) (free : Squarefree r)
    (small : c ^ 2 * r < 10 ^ 8) :
    recognise (.real x) defaultPrecision =
      .ok ⟨.int (if (Number.real x).isNegative then -c else c), .int r, false⟩ := by
  have hr : 1 ≤ r := Nat.pos_of_ne_zero free.ne_zero
  have positive : 1 ≤ c ^ 2 * r := Nat.mul_pos (pow_pos hc 2) hr
  obtain ⟨hq, square⟩ := h.square positive small
  have nonzero : ¬(Number.real x).isZero = true := by
    rw [Number.isZero_real h.isFinite]
    intro zero
    have low := h.bounds.1
    rw [zero, abs_zero] at low
    linarith [(sqrt_cast_bounds positive small).1]
  have top : ((c ^ 2 * r : Nat) : Int) ≠ 0 := by exact_mod_cast Nat.ne_of_gt positive
  obtain ⟨⟨y, _⟩, root, hy, value, rfl⟩ := Fraction.root_whole hc free small
  obtain ⟨hc', hr'⟩ := parts_lt hc hr small
  have whole : (Number.real y).normalize = .int c :=
    Number.normalize_real hy (value.trans (Int.cast_natCast c).symm) (by omega)
  have radicand : (Number.int r).isFinite = true := Number.isFinite_int (Double.ofInt_exact (by omega)).1
  -- Of the ways out of the recognition, the estimates above close all but the last.
  rw [recognise, squareInReach?_of_near h.isFinite hq square small, ok_bind]
  dsimp only
  rw [if_neg nonzero, closeFraction?_of_near hq square small, ok_bind]
  dsimp only
  rw [if_neg top, root, ok_bind]
  dsimp only
  rw [Number.sqrt_natCast, if_pos radicand, whole]
  show (if defaultPrecision.le (Number.real ((y.mul (Double.ofInt r).sqrt).sub x.abs)).abs = true then _ else _) = _
  rw [precision_le_of_near h hy value hc hr small, if_neg Bool.false_ne_true, Number.mul_int, ok_bind]
  split
  · rw [Int.neg_one_mul]
    rfl
  · rw [Int.one_mul]
    rfl

/-- A double this close to a multiple of a root is positive. -/
theorem NearRoot.of_abs_sub_le (hc : 1 ≤ c) (hr : 1 ≤ r) (small : c ^ 2 * r < 10 ^ 8) (hx : x.isFinite = true)
    (near : |x.toReal - c * √(r : ℝ)| ≤ c * √(r : ℝ) * 2 ^ (-52 : Int)) : 0 < x.toReal ∧ NearRoot x (c ^ 2 * r) := by
  have one : 1 ≤ c * √(r : ℝ) := by
    rw [← sqrt_sq_mul]
    exact (sqrt_cast_bounds (Nat.mul_pos (pow_pos hc 2) hr) small).1
  have part : c * √(r : ℝ) * 2 ^ (-52 : Int) ≤ c * √(r : ℝ) / 2 := by
    rw [div_eq_mul_inv]
    exact mul_le_mul_of_nonneg_left (by norm_num) (zero_le_one.trans one)
  have positive : 0 < x.toReal := by
    have low := (abs_le.mp (near.trans part)).1
    linarith
  exact ⟨positive, hx, by rwa [sqrt_sq_mul, abs_of_pos positive]⟩

/-- **Roots are recovered.** A double that is a whole multiple of the root of a square-free number up to a relative error
of 2 ^ -52 is recognised with the default precision as just that multiple and that root, and its opposite as the opposite
multiple, as long as the square of the multiple and the root is below 10 ^ 8. -/
theorem Radical.recognise_root (hc : 1 ≤ c) (free : Squarefree r) (small : c ^ 2 * r < 10 ^ 8) (hx : x.isFinite = true)
    (near : |x.toReal - c * √(r : ℝ)| ≤ c * √(r : ℝ) * 2 ^ (-52 : Int)) :
    recognise (.real x) defaultPrecision = .ok ⟨.int c, .int r, false⟩ ∧
    recognise (.real x.neg) defaultPrecision = .ok ⟨.int (-c), .int r, false⟩ := by
  obtain ⟨positive, root⟩ := NearRoot.of_abs_sub_le hc (Nat.pos_of_ne_zero free.ne_zero) small hx near
  have above : ¬(Number.real x).isNegative = true := by
    rw [Number.isNegative_real hx]
    exact positive.not_gt
  have below : (Number.real x.neg).isNegative = true := by
    rw [Number.isNegative_real root.neg.isFinite, Double.toReal_neg]
    exact neg_neg_of_pos positive
  have first := recognise_of_near root hc free small
  have second := recognise_of_near root.neg hc free small
  rw [if_neg above] at first
  rw [if_pos below] at second
  exact ⟨first, second⟩

/-- The double nearest to twice the root of three. -/
theorem abs_twiceSqrtThree_sub_le :
    |(Decimal.toDouble ⟨false, 34641016151377544, -16⟩).toReal - (2 : Nat) * √((3 : Nat) : ℝ)| ≤
      (2 : Nat) * √((3 : Nat) : ℝ) * 2 ^ (-52 : Int) := by
  obtain ⟨_, value⟩ : ∃ h, Decimal.toDouble ⟨false, 34641016151377544, -16⟩ =
      .finite false 7800463371553962 (-51) h := ⟨by decide, rfl⟩
  have low : (7800463371553961 : ℝ) / 2 ^ 52 ≤ √3 := Real.le_sqrt_of_sq_le (by norm_num)
  have high : √(3 : ℝ) ≤ 7800463371553963 / 2 ^ 52 := Real.sqrt_le_iff.mpr (by norm_num)
  have unit : (2 : ℝ) ^ (-51 : Int) ≤ 2 * √3 * 2 ^ (-52 : Int) := by
    have one : (1 : ℝ) ≤ √3 := Real.one_le_sqrt.mpr (by norm_num)
    calc (2 : ℝ) ^ (-51 : Int) = 2 * 1 * 2 ^ (-52 : Int) := by norm_num
      _ ≤ 2 * √3 * 2 ^ (-52 : Int) := by gcongr
  rw [value, Double.toReal_finite, if_neg Bool.false_ne_true]
  push_cast
  refine le_trans ?_ unit
  rw [abs_le]
  norm_num at low high ⊢
  constructor <;> linarith

theorem Radical.recognise_root_twelve :
    recognise (.real (Decimal.toDouble ⟨false, 34641016151377544, -16⟩)) defaultPrecision = .ok ⟨2, 3, false⟩ ∧
    recognise (.real (Decimal.toDouble ⟨true, 34641016151377544, -16⟩)) defaultPrecision =
      .ok ⟨.int (-2), 3, false⟩ := by
  have free : Squarefree 3 := by decide +kernel
  exact recognise_root (by decide) free (by decide) rfl abs_twiceSqrtThree_sub_le

end Surd
