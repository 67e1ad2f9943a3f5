import Surd.Proofs.Radical.Recovered

/-!
# Rational denominators

The fraction that is found for a square is in lowest terms, so the square-free parts of its numerator and its
denominator have no factor in common, and their product, which is not simplified again, is square-free. With it the root
of the fraction has a rational denominator (`Rationalises`), and what a double is recognised as is such a root with its
sign, or the double itself (`Radical.recognise_rationalised`).
-/

namespace Surd

variable {a b : Nat} {v w c d r q : Int} {x : Double}

/-- The square-free decompositions of coprime numbers make up that of their product. -/
theorem Decomposes.mul (h : Decomposes v c r) (h' : Decomposes w d q) (coprime : IsCoprime v w) :
    Decomposes (v * w) (c * d) (r * q) where
  square := by
    rw [abs_mul, ← h.square, ← h'.square]
    ring
  positive := Int.mul_pos h.positive h'.positive
  squarefree := by
    have first : r ∣ v := (dvd_abs r v).mp ⟨c ^ 2, by rw [← h.square, mul_comm]⟩
    have second : q ∣ w := (dvd_abs q w).mp ⟨d ^ 2, by rw [← h'.square, mul_comm]⟩
    have parts : IsCoprime r q := (coprime.of_isCoprime_of_dvd_left first).of_isCoprime_of_dvd_right second
    exact squarefree_mul_iff.mpr ⟨parts.isRelPrime, h.squarefree, h'.squarefree⟩
  sign := by rw [Int.sign_mul, Int.sign_mul, h.sign, h'.sign]

/-- The root of a fraction with a rational denominator: of `c₁√r₁ / (c₂√r₂)` it is `c₁ / (c₂ r₂)` times the root of the
square-free number `r₁ r₂`. -/
structure Rationalises (a b : Nat) (c₁ r₁ c₂ r₂ : Int) : Prop where
  numerator : Radical.simplify (.int a) = .ok ⟨.int c₁, .int r₁, false⟩
  denominator : Radical.simplify (.int b) = .ok ⟨.int c₂, .int r₂, false⟩
  product : Decomposes (a * b) (c₁ * c₂) (r₁ * r₂)
  square : ((c₁ ^ 2 * (r₁ * r₂) : Int) : ℚ) / ((c₂ * r₂) ^ 2 : Int) = a / b

theorem rationalises_rootOfNat (ha : a ≠ 0) (hb : b ≠ 0) (lowest : a.Coprime b) :
    Rationalises a b (rootOfNat a).1 (rootOfNat a).2 (rootOfNat b).1 (rootOfNat b).2 := by
  refine ⟨Radical.simplify_eq (Number.isNat_int a) ha, Radical.simplify_eq (Number.isNat_int b) hb,
    (decomposes_rootOfNat_cast ha).mul (decomposes_rootOfNat_cast hb) (Nat.isCoprime_iff_coprime.mpr lowest), ?_⟩
  obtain ⟨_, _, first⟩ := rootOfNat_spec ha
  obtain ⟨hc, hr, second⟩ := rootOfNat_spec hb
  generalize rootOfNat a = root₁ at first ⊢
  generalize rootOfNat b = root₂ at hc hr second ⊢
  have numerator : (a : ℚ) = root₁.1 ^ 2 * root₁.2 := by exact_mod_cast first.symm
  have denominator : (b : ℚ) = root₂.1 ^ 2 * root₂.2 := by exact_mod_cast second.symm
  have hc : (root₂.1 : ℚ) ≠ 0 := by exact_mod_cast hc.ne'
  have hr : (root₂.2 : ℚ) ≠ 0 := by exact_mod_cast hr.ne'
  rw [numerator, denominator]
  push_cast
  field_simp

/-! ## The coefficient -/

theorem Number.quotient_of_pos {m n : Int} {y : Double} (hm : 0 < m) (hn : 0 < n) (h : quotient m n = .ok y) :
    y = Double.nearest false m.natAbs n.natAbs := by
  have sign : (decide (m < 0) != decide (n < 0)) = false := by
    rw [decide_eq_false hm.not_gt, decide_eq_false hn.not_gt, bne_self_eq_false]
  rw [quotient, if_neg hn.ne', sign] at h
  dsimp only at h
  split at h
  · cases h
  · exact (Except.ok.inj h).symm

/-- A whole number over a small one is not taken for zero. -/
theorem Number.normalize_quotient_pos {m n : Int} {y : Double} (hm : 0 < m) (hn : 0 < n) (small : n ≤ 2 ^ 14)
    (h : quotient m n = .ok y) (finite : y.isFinite = true) : 0 < (normalize (real y)).toReal := by
  obtain rfl := quotient_of_pos hm hn h
  have numerator : (1 : ℝ) ≤ m.natAbs := by exact_mod_cast Int.natAbs_pos.mpr hm.ne'
  have denominator : (0 : ℝ) < n.natAbs := by exact_mod_cast Int.natAbs_pos.mpr hn.ne'
  have within : (n.natAbs : ℝ) ≤ 2 ^ 14 := by exact_mod_cast (show n.natAbs ≤ 2 ^ 14 by omega)
  have large : (2 : ℝ) ^ (-14 : Int) ≤ m.natAbs / n.natAbs := by
    rw [le_div_iff₀ denominator]
    calc (2 : ℝ) ^ (-14 : Int) * n.natAbs ≤ 2 ^ (-14 : Int) * 2 ^ 14 :=
          mul_le_mul_of_nonneg_left within (zpow_pos two_pos _).le
      _ = 1 := by norm_num
      _ ≤ m.natAbs := numerator
  apply toReal_normalize_pos finite
  refine le_trans ?_ (Double.zpow_le_toReal_nearest (by decide) (Int.natAbs_pos.mpr hn.ne') large finite)
  rw [toReal_tolerance]
  norm_num

/-- A fraction's root is computed as the quotient that makes the denominator rational. -/
theorem Fraction.root_eq_ok {f : Fraction} {y : Double} {radicand : Int} (h : f.root = .ok (y, radicand)) :
    Number.quotient (rootOfNat f.num.natAbs).1 ((rootOfNat f.den).1 * (rootOfNat f.den).2) = .ok y ∧
      radicand = (rootOfNat f.num.natAbs).2 * (rootOfNat f.den).2 := by
  obtain ⟨z, quotient, same⟩ := exists_of_bind_eq_ok h
  obtain ⟨rfl, rfl⟩ := Prod.mk.inj (Except.ok.inj same)
  exact ⟨quotient, rfl⟩

theorem nonneg_mul_self (hx : x.isFinite = true) : 0 ≤ (x.mul x).toReal := by
  have sign := Double.signOf_negative (x.mul x)
  rwa [negative_mul_self hx, Double.signOf_false] at sign

/-- **Rational denominators.** A finite double that is not zero is recognised, with any precision, as itself over the
root of one, or as the root of the fraction that was found for its square: the fraction is positive and in lowest terms,
the radicand is the square-free part of its numerator times its denominator, and the coefficient is the rational one,
rounded and normalised. It is not zero and has the sign of the double. -/
theorem Radical.recognise_rationalised (hx : x.isFinite = true) (nonzero : x.toReal ≠ 0) (precision : Number) :
    Returns (recognise (.real x) precision) fun form =>
      form = ⟨(Number.real x).normalize, 1, false⟩ ∨
      ∃ (a b : Nat) (c₁ r₁ c₂ r₂ : Int) (y : Double),
        closeFraction? (.real (x.mul x)) precision = .ok (some ⟨a, b⟩) ∧ 0 < a ∧ 0 < b ∧ a.Coprime b ∧
        Rationalises a b c₁ r₁ c₂ r₂ ∧ Number.quotient c₁ (c₂ * r₂) = .ok y ∧
        form = ⟨if (Number.real x).isNegative then (Number.real y).normalize.neg else (Number.real y).normalize,
          .int (r₁ * r₂), false⟩ ∧
        0 < form.coefficient.toReal * x.toReal := by
  apply (recognise_returns hx precision).mono
  intro form recognised
  cases recognised with
  | fallback => exact .inl rfl
  | zero none => exact absurd ((Number.isZero_real hx).mp none) nonzero
  | @root f y radicand close closest top parts finite =>
      obtain ⟨num, den⟩ := f
      obtain ⟨a, rfl⟩ := Int.eq_ofNat_of_zero_le (closest.num_nonneg (nonneg_mul_self hx))
      have ha : a ≠ 0 := Int.natCast_ne_zero.mp top
      have hden : 0 < den := closest.positive
      obtain ⟨quotient, rfl⟩ := Fraction.root_eq_ok parts
      dsimp only at quotient ⊢
      rw [Int.natAbs_natCast] at quotient ⊢
      refine .inr ⟨a, den, _, _, _, _, y, close, Nat.pos_of_ne_zero ha, hden, closest.lowest,
        rationalises_rootOfNat ha hden.ne' closest.lowest, quotient, rfl, ?_⟩
      have positive : 0 < ((Number.real y).normalize).toReal := by
        obtain ⟨hc₁, _, _⟩ := rootOfNat_spec ha
        obtain ⟨hc₂, hr₂, square⟩ := rootOfNat_spec hden.ne'
        refine Number.normalize_quotient_pos hc₁ (Int.mul_pos hc₂ hr₂) ?_ quotient finite
        have within : (den : Int) ≤ 10000 := by exact_mod_cast closest.within
        nlinarith
      split
      · rename_i negative
        rw [Number.toReal_neg]
        exact mul_pos_of_neg_of_neg (neg_neg_of_pos positive) ((Number.isNegative_real hx).mp negative)
      · rename_i nonneg
        rw [Number.isNegative_real hx, not_lt] at nonneg
        exact mul_pos positive (lt_of_le_of_ne nonneg nonzero.symm)

/-- The double nearest to twice the root of three is the root of a fraction, not itself. -/
theorem Radical.recognise_rationalised_twelve : ∃ (a b : Nat) (c₁ r₁ c₂ r₂ : Int) (y : Double),
    Rationalises a b c₁ r₁ c₂ r₂ ∧ Number.quotient c₁ (c₂ * r₂) = .ok y ∧ r₁ * r₂ = 3 ∧
    recognise (.real (Decimal.toDouble ⟨false, 34641016151377544, -16⟩)) defaultPrecision = .ok ⟨2, 3, false⟩ := by
  have free : Squarefree 3 := by decide +kernel
  obtain ⟨positive, root⟩ := NearRoot.of_abs_sub_le (by decide) (by decide) (by decide) rfl abs_twiceSqrtThree_sub_le
  have above : ¬(Number.real (Decimal.toDouble ⟨false, 34641016151377544, -16⟩)).isNegative = true := by
    rw [Number.isNegative_real root.isFinite]
    exact positive.not_gt
  have found := recognise_of_near root (by decide) free (by decide)
  rw [if_neg above] at found
  obtain ⟨_, same, fallback | ⟨a, b, c₁, r₁, c₂, r₂, y, _, _, _, _, rational, quotient, rfl, _⟩⟩ :=
    recognise_rationalised root.isFinite positive.ne' defaultPrecision
  · rw [fallback, found] at same
    cases same
  · rw [found] at same
    have radicand := congrArg Radical.radicand (Except.ok.inj same)
    exact ⟨a, b, c₁, r₁, c₂, r₂, y, rational, quotient, (Number.int.inj radicand).symm, found⟩

end Surd
