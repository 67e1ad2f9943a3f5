import Surd.Radical.Recognition
import Surd.Proofs.Fraction
import Surd.Proofs.Number.Normalize
import Surd.Proofs.Radical.Finite

/-!
# Recognising radicals never faults

Only decimals whose square is in reach are looked at, which keeps all numbers on the way small: the fraction for the
square, the root of the fraction and the product that is compared with the decimal. So `Radical.recognise` succeeds for
every finite double and every precision, in one of the ways that `Radical.Recognised` lists.
-/

namespace Surd

variable {x q : Double} {f : Fraction} {num den : Nat}

/-! ## Squares in reach -/

/-- A double is beyond a whole number if it is infinite, or if its value is. -/
theorem Number.lt_int_real {n : Int} (positive : q.negative = false) (number : q ≠ .nan)
    (beyond : q.isFinite = true → (n : ℝ) < q.toReal) : (int n).lt (.real q) = true := by
  cases q with
  | nan => exact absurd rfl number
  | infinite s =>
      cases s with
      | true => cases positive
      | false => rfl
  | finite s m e fits =>
      have above := compare_gt_iff_gt.mpr (beyond rfl)
      rw [lt, compare?, Double.compareInt?_of_isFinite rfl, above]
      rfl

/-- The greatest denominator is a double. -/
theorem ofInt_maxDenominator :
    (Double.ofInt maxDenominator).isFinite = true ∧ (Double.ofInt maxDenominator).toReal = 10 ^ 4 := by
  obtain ⟨finite, value⟩ := Double.ofInt_exact (n := maxDenominator) (by decide)
  refine ⟨finite, ?_⟩
  rw [value]
  norm_num [maxDenominator]

/-- What is multiplied to a double within the limit is far below the greatest double. -/
theorem abs_toReal_lt_of_product (hq : q.isFinite = true) (positive : q.negative = false)
    (within : (Number.int trialLimit).lt (.real (q.mul (.ofInt maxDenominator))) = false) :
    |q.toReal| < 2 ^ (60 : Int) := by
  obtain ⟨hd, value⟩ := ofInt_maxDenominator
  obtain ⟨num, den, hden, size, product⟩ := Double.exists_mul_eq_nearest hq hd
  have sign : (Double.ofInt maxDenominator).negative = false := rfl
  rw [positive, sign, bne_self_eq_false] at product
  by_contra! large
  refine ne_true_of_eq_false within ?_
  rw [product]
  apply Number.lt_int_real (Double.negative_nearest _ _ _) (Double.nearest_ne_nan _ _ _)
  intro finite
  have reached : (2 : ℝ) ^ (60 : Int) ≤ num / den := by
    rw [size, abs_mul, value]
    refine large.trans (le_mul_of_one_le_right (abs_nonneg _) ?_)
    norm_num
  refine lt_of_lt_of_le ?_ (Double.zpow_le_toReal_nearest (by decide) hden reached finite)
  norm_num [trialLimit]

theorem squareInReach?_eq (hx : x.isFinite = true) :
    squareInReach? (.real x) = .ok
      (if (Number.int trialLimit).lt (.real ((x.mul x).mul (.ofInt maxDenominator))) then none
        else some (.real (x.mul x))) := by
  show (if !x.isFinite then _ else _) = _
  rw [hx]
  rfl

/-- A square is not negative, also where it overflows. -/
theorem negative_mul_self (hx : x.isFinite = true) : (x.mul x).negative = false := by
  obtain ⟨num, den, _, _, square⟩ := Double.exists_mul_eq_nearest hx hx
  rw [square, Double.negative_nearest, bne_self_eq_false]

/-- A square in reach is the finite double that the product gives, and it is far below the greatest double. -/
theorem squareInReach?_returns (hx : x.isFinite = true) :
    Returns (squareInReach? (.real x)) fun o =>
      ∀ a ∈ o, a = .real (x.mul x) ∧ (x.mul x).isFinite = true ∧ |(x.mul x).toReal| < 2 ^ (60 : Int) := by
  have positive := negative_mul_self hx
  have number := Double.mul_ne_nan hx hx
  rw [squareInReach?_eq hx]
  refine .ok fun a ha => ?_
  obtain ⟨within, same⟩ := Option.ite_none_left_eq_some.mp ha
  obtain rfl := Option.some.inj same
  rw [Bool.not_eq_true] at within
  generalize x.mul x = q at positive number within
  refine ⟨rfl, ?_⟩
  cases q with
  | nan => exact absurd rfl number
  | infinite s =>
      cases s with
      | true => cases positive
      | false => cases within
  | finite s m e fits => exact ⟨rfl, abs_toReal_lt_of_product rfl positive within⟩

/-! ## Quotients and roots -/

theorem Number.quotient_returns {m n : Int} (hn : n ≠ 0) (hm : m.natAbs < 2 ^ 1023) :
    Returns (quotient m n) fun y => y.isFinite = true ∧
      y = Double.nearest (decide (m < 0) != decide (n < 0)) m.natAbs n.natAbs := by
  have hd : 0 < n.natAbs := Int.natAbs_pos.mpr hn
  have below : (m.natAbs : ℝ) / n.natAbs < 2 ^ (1023 : Int) := by
    refine (div_le_self (Nat.cast_nonneg _) (by exact_mod_cast hd)).trans_lt ?_
    exact_mod_cast hm
  have finite := Double.isFinite_nearest (decide (m < 0) != decide (n < 0)) hd below
  rw [quotient, if_neg hn]
  dsimp only
  rw [Double.isInfinite_of_isFinite finite]
  exact .ok ⟨finite, rfl⟩

/-- Neither part of a root exceeds the number. -/
theorem rootOfNat_le {n : Nat} (hn : n ≠ 0) : (rootOfNat n).1.natAbs ≤ n ∧ (rootOfNat n).2.natAbs ≤ n := by
  obtain ⟨hc, hr, square⟩ := rootOfNat_spec hn
  have first : (rootOfNat n).1 ≤ n := by
    rw [← square]
    nlinarith
  have second : (rootOfNat n).2 ≤ n := by
    rw [← square]
    exact le_mul_of_one_le_left hr.le (one_le_pow₀ hc)
  omega

/-- The root of a fraction with small parts has a finite coefficient and a small radicand. -/
theorem Fraction.root_returns (hn : f.num ≠ 0) (hd : 0 < f.den) (numerator : f.num.natAbs < 2 ^ 80)
    (denominator : f.den < 2 ^ 80) :
    Returns f.root fun r => r.1.isFinite = true ∧ ∃ n : Nat, r.2 = n ∧ (Number.int n).isFinite = true := by
  have hnum : f.num.natAbs ≠ 0 := Int.natAbs_ne_zero.mpr hn
  obtain ⟨_, hr₁, _⟩ := rootOfNat_spec hnum
  obtain ⟨hc₂, hr₂, _⟩ := rootOfNat_spec hd.ne'
  obtain ⟨small₁, radicand₁⟩ := rootOfNat_le hnum
  obtain ⟨_, radicand₂⟩ := rootOfNat_le hd.ne'
  rw [root]
  generalize rootOfNat f.num.natAbs = root₁ at hr₁ small₁ radicand₁ ⊢
  generalize rootOfNat f.den = root₂ at hc₂ hr₂ radicand₂ ⊢
  obtain ⟨c₁, r₁⟩ := root₁
  obtain ⟨c₂, r₂⟩ := root₂
  dsimp only at *
  have coefficient := Number.quotient_returns (m := c₁) (Int.mul_pos hc₂ hr₂).ne'
    ((small₁.trans_lt numerator).trans (pow_lt_pow_right₀ one_lt_two (by decide)))
  refine coefficient.bind fun c hc => .ok ⟨hc.1, (r₁ * r₂).natAbs, ?_, ?_⟩
  · exact (Int.natAbs_of_nonneg (Int.mul_pos hr₁ hr₂).le).symm
  · apply Number.isFinite_int
    apply Double.isFinite_ofInt
    rw [Int.natAbs_natCast, Int.natAbs_mul]
    calc r₁.natAbs * r₂.natAbs ≤ 2 ^ 80 * 2 ^ 80 := Nat.mul_le_mul (by omega) (by omega)
      _ < 2 ^ 1023 := by
          rw [← pow_add]
          exact pow_lt_pow_right₀ one_lt_two (by decide)

/-- The parts of the closest fraction of a small number are small. -/
theorem Fraction.Closest.small (h : Closest q.toReal maxDenominator f) (small : |q.toReal| < 2 ^ (60 : Int)) :
    f.den < 2 ^ 80 ∧ f.num.natAbs < 2 ^ 80 := by
  have numerator : f.num.natAbs ≤ 2 ^ 60 * maxDenominator := h.natAbs_num_le (by exact_mod_cast small.le)
  have denominator := h.within
  rw [maxDenominator] at numerator denominator
  omega

/-- Only the closest fraction is taken for a double, if any is. -/
theorem closeFraction?_returns (hq : q.isFinite = true) (small : |q.toReal| < 2 ^ (60 : Int)) (precision : Number) :
    Returns (closeFraction? (.real q) precision) fun o => ∀ f ∈ o, Fraction.Closest q.toReal maxDenominator f := by
  apply (Fraction.ofNumber_returns hq).bind
  rintro f ⟨hd, lowest, value⟩
  have closest := Fraction.limitDenominator_closest hd lowest (show 0 < maxDenominator by decide)
  rw [value] at closest
  generalize f.limitDenominator maxDenominator = g at closest ⊢
  have numerator := (closest.small small).2.trans (pow_lt_pow_right₀ one_lt_two (by decide : 80 < 1023))
  apply (Number.quotient_returns (m := g.num) (n := g.den) (by exact_mod_cast closest.positive.ne') numerator).bind
  intro y _
  show Returns (.ok (if _ then some g else none)) _
  refine .ok fun h hh => ?_
  obtain ⟨_, same⟩ := Option.ite_none_right_eq_some.mp hh
  obtain rfl := Option.some.inj same
  exact closest

/-- What a double is recognised as: the number itself, or the root of the fraction that was found for its square. -/
inductive Radical.Recognised (x : Double) (precision : Number) : Radical → Prop
  | fallback : Recognised x precision ⟨(Number.real x).normalize, 1, false⟩
  | zero (none : (Number.real x).isZero = true) : Recognised x precision ⟨0, 1, false⟩
  | root {f : Fraction} {q : Double} {radicand : Int}
      (close : closeFraction? (.real (x.mul x)) precision = .ok (some f))
      (closest : Fraction.Closest (x.mul x).toReal maxDenominator f) (nonzero : f.num ≠ 0)
      (parts : f.root = .ok (q, radicand)) (finite : q.isFinite = true) :
      Recognised x precision
        ⟨if (Number.real x).isNegative then (Number.real q).normalize.neg else (Number.real q).normalize,
          .int radicand, false⟩

/-- Every finite double is recognised as some radical, with any precision. -/
theorem Radical.recognise_returns (hx : x.isFinite = true) (precision : Number) :
    Returns (recognise (.real x) precision) (Recognised x precision) := by
  apply (squareInReach?_returns hx).bind
  intro o reach
  cases o with
  | none => exact .ok .fallback
  | some a =>
      obtain ⟨rfl, hq, small⟩ := reach a rfl
      dsimp only
      split
      · rename_i none
        exact .ok (.zero none)
      · obtain ⟨close, found, closest⟩ := closeFraction?_returns hq small precision
        rw [found, ok_bind]
        cases close with
        | none => exact .ok .fallback
        | some f =>
            obtain ⟨denominator, numerator⟩ := (closest f rfl).small small
            dsimp only
            split
            · exact .ok .fallback
            · rename_i nonzero
              obtain ⟨⟨q, _⟩, parts, finite, n, rfl, radicand⟩ :=
                Fraction.root_returns nonzero (closest f rfl).positive numerator denominator
              rw [parts, ok_bind]
              dsimp only
              rw [Number.sqrt_natCast, if_pos radicand, Number.sign_mul _ (Number.bounded_normalize finite)]
              show Returns (if precision.le _ = true then _ else _) _
              split
              · exact .ok .fallback
              · exact .ok (.root found (closest f rfl) nonzero parts finite)

end Surd
