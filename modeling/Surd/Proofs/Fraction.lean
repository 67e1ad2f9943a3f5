import Surd.Fraction
import Surd.Proofs.Double.Value
import Surd.Proofs.Returns
import Mathlib.Data.Nat.Cast.Field
import Mathlib.Tactic.FieldSimp

/-!
# Closest fractions

Each denominator is tried with its nearest numerator, and a later denominator wins only where it comes strictly closer.
So no fraction with a denominator within the limit is closer than the one that is found, and every one with a smaller
denominator is farther away: the fraction is in lowest terms, and next to a whole number it is that number.
-/

namespace Surd.Fraction

variable {f : Fraction} {x : ℝ} {num den p q limit : Nat}

/-- The real number of a fraction. -/
noncomputable def toReal (f : Fraction) : ℝ := f.num / f.den

/-- Of the fractions with a denominator within the limit the closest one, and of equally close ones the first. -/
structure Closest (x : ℝ) (limit : Nat) (f : Fraction) : Prop where
  positive : 0 < f.den
  within : f.den ≤ limit
  closest : ∀ (p : Int) (q : Nat), 0 < q → q ≤ limit → |x - f.toReal| ≤ |x - p / q|
  first : ∀ (p : Int) (q : Nat), 0 < q → q < f.den → |x - f.toReal| < |x - p / q|

namespace Closest

/-- A common factor would leave an equal fraction with a smaller denominator. -/
theorem lowest (h : Closest x limit f) : f.num.natAbs.Coprime f.den := by
  have positive : 0 < f.num.natAbs.gcd f.den := Nat.gcd_pos_of_pos_right _ h.positive
  obtain ⟨q, hq⟩ := Nat.gcd_dvd_right f.num.natAbs f.den
  obtain ⟨p, hp⟩ : ((f.num.natAbs.gcd f.den : Nat) : Int) ∣ f.num := Int.natCast_dvd.mpr (Nat.gcd_dvd_left _ _)
  by_contra common
  rw [Nat.coprime_iff_gcd_eq_one] at common
  generalize f.num.natAbs.gcd f.den = g at *
  have below : q < f.den := by
    rw [hq]
    exact lt_mul_of_one_lt_left (Nat.pos_of_mul_pos_left (hq ▸ h.positive)) (by omega)
  have same : f.toReal = p / q := by
    have hg : (g : ℝ) ≠ 0 := by exact_mod_cast positive.ne'
    rw [toReal, hp, hq]
    push_cast
    exact mul_div_mul_left _ _ hg
  refine (h.first p q (Nat.pos_of_mul_pos_left (hq ▸ h.positive)) below).ne ?_
  rw [same]

theorem neg (h : Closest x limit f) : Closest (-x) limit ⟨-f.num, f.den⟩ := by
  have mirrored : ∀ (p : Int) (q : Nat), |-x - p / q| = |x - (-p : Int) / q| := by
    intro p q
    rw [← abs_neg]
    push_cast
    congr 1
    ring
  have own : |-x - toReal ⟨-f.num, f.den⟩| = |x - f.toReal| := by
    rw [toReal, mirrored, neg_neg, toReal]
  refine ⟨h.positive, h.within, fun p q hq hl => ?_, fun p q hq below => ?_⟩
  · rw [own, mirrored]
    exact h.closest _ q hq hl
  · rw [own, mirrored]
    exact h.first _ q hq below

/-- A whole number above the value is not passed. -/
theorem toReal_le {n : Int} (h : Closest x limit f) (le : x ≤ n) : f.toReal ≤ n := by
  have close := h.closest n 1 Nat.one_pos (h.positive.trans_le h.within)
  rw [Nat.cast_one, div_one, abs_of_nonpos (sub_nonpos.mpr le)] at close
  by_contra! above
  rw [abs_of_nonpos (by linarith)] at close
  linarith

theorem le_toReal {n : Int} (h : Closest x limit f) (le : n ≤ x) : n ≤ f.toReal := by
  have mirrored : (toReal ⟨-f.num, f.den⟩) = -f.toReal := by
    rw [toReal, toReal, Int.cast_neg, neg_div]
  have below := h.neg.toReal_le (n := -n) (by
    push_cast
    linarith)
  rw [mirrored] at below
  push_cast at below
  linarith

theorem num_nonneg (h : Closest x limit f) (nonneg : 0 ≤ x) : 0 ≤ f.num := by
  have value := h.le_toReal (n := 0) (by rwa [Int.cast_zero])
  rw [toReal, Int.cast_zero, le_div_iff₀ (by exact_mod_cast h.positive), zero_mul] at value
  exact_mod_cast value

/-- The numerator grows with the value only. -/
theorem natAbs_num_le {bound : Nat} (h : Closest x limit f) (le : |x| ≤ bound) : f.num.natAbs ≤ bound * limit := by
  have hden : (0 : ℝ) < f.den := by exact_mod_cast h.positive
  obtain ⟨low, high⟩ := abs_le.mp le
  have above := h.toReal_le (n := bound) (by rwa [Int.cast_natCast])
  have below := h.le_toReal (n := -bound) (by rwa [Int.cast_neg, Int.cast_natCast])
  rw [Int.cast_neg, Int.cast_natCast] at below
  rw [Int.cast_natCast] at above
  have size : |(f.num : ℝ)| ≤ bound * f.den := by
    rw [← div_le_iff₀ hden, ← abs_of_pos hden, ← abs_div, abs_le]
    exact ⟨below, above⟩
  rw [← Int.cast_abs, ← Nat.cast_natAbs] at size
  have size : f.num.natAbs ≤ bound * f.den := by exact_mod_cast size
  exact size.trans (Nat.mul_le_mul_left bound h.within)

/-- Other fractions are at least a part of the denominator away from a whole number. -/
theorem eq_of_near {n : Int} (h : Closest x limit f) (near : |x - n| * (2 * limit) < 1) : f = ⟨n, 1⟩ := by
  have hden : (0 : ℝ) < f.den := by exact_mod_cast h.positive
  have within : (f.den : ℝ) ≤ limit := by exact_mod_cast h.within
  have close := h.closest n 1 Nat.one_pos (h.positive.trans_le h.within)
  rw [Nat.cast_one, div_one] at close
  have apart : |f.toReal - n| ≤ 2 * |x - n| := by
    calc |f.toReal - n| ≤ |f.toReal - x| + |x - n| := abs_sub_le _ _ _
      _ ≤ 2 * |x - n| := by
          rw [abs_sub_comm f.toReal x]
          linarith
  have small : |((f.num - n * f.den : Int) : ℝ)| < 1 := by
    calc |((f.num - n * f.den : Int) : ℝ)| = |f.toReal - n| * f.den := by
          rw [← abs_of_pos hden, ← abs_mul, toReal, sub_mul, div_mul_cancel₀ _ hden.ne']
          push_cast
          rfl
      _ ≤ 2 * |x - n| * limit := mul_le_mul apart within hden.le (by positivity)
      _ < 1 := by linarith
  have whole : f.num = n * f.den := by
    have zero := Int.abs_lt_one_iff.mp (by exact_mod_cast small)
    omega
  have one : f.den = 1 := by
    have lowest := h.lowest
    rw [whole, Int.natAbs_mul, Int.natAbs_natCast] at lowest
    exact (Nat.coprime_self _).mp (Nat.Coprime.coprime_mul_left lowest)
  obtain ⟨num, den⟩ := f
  obtain rfl : den = 1 := one
  rw [show num = n by simpa using whole]

end Closest

/-! ## The search -/

theorem cast_distance (hd : 0 < den) (hq : 0 < q) (num p : Nat) :
    (distance num den p q : ℝ) = |(num : ℝ) / den - p / q| * (den * q) := by
  have hden : (0 : ℝ) < den := by exact_mod_cast hd
  have hq' : (0 : ℝ) < q := by exact_mod_cast hq
  have scaled : |(num : ℝ) / den - p / q| * (den * q) = |(num : ℝ) * q - p * den| := by
    rw [← abs_of_pos (mul_pos hden hq'), ← abs_mul]
    congr 1
    field_simp
  rw [scaled, distance]
  obtain below | above := le_total (num * q) (p * den)
  · have below' : (num : ℝ) * q ≤ p * den := by exact_mod_cast below
    rw [Nat.sub_eq_zero_of_le below, Nat.zero_add, Nat.cast_sub below, abs_of_nonpos (sub_nonpos.mpr below')]
    push_cast
    ring
  · have above' : (p : ℝ) * den ≤ num * q := by exact_mod_cast above
    rw [Nat.sub_eq_zero_of_le above, Nat.add_zero, Nat.cast_sub above, abs_of_nonneg (sub_nonneg.mpr above')]
    push_cast
    rfl

/-- The distances are compared without dividing. -/
theorem distance_lt_iff {p' q' : Nat} (hd : 0 < den) (hq : 0 < q) (hq' : 0 < q') :
    distance num den p q * q' < distance num den p' q' * q ↔
      |(num : ℝ) / den - p / q| < |(num : ℝ) / den - p' / q'| := by
  have factor : (0 : ℝ) < den * q * q' := by positivity
  have common : ∀ a : ℝ, a * (den * q') * q = a * (den * q * q') := fun a => by ring
  rw [← @Nat.cast_lt ℝ, Nat.cast_mul, Nat.cast_mul, cast_distance hd hq, cast_distance hd hq', mul_assoc, common,
    mul_lt_mul_iff_left₀ factor]

/-- A denominator with its nearest numerator is as close as with any other. -/
theorem abs_sub_candidate_le (hd : 0 < den) (hq : 0 < q) (num : Nat) (p : Int) :
    |(num : ℝ) / den - (roundDiv (num * q) den : Nat) / q| ≤ |(num : ℝ) / den - p / q| := by
  have hq' : (0 : ℝ) < q := by exact_mod_cast hq
  have scaled : ∀ a : ℝ, |(num : ℝ) / den - a / q| = |a - (num * q : Nat) / den| / q := by
    intro a
    rw [← abs_of_pos hq', ← abs_div, abs_of_pos hq', abs_sub_comm]
    congr 1
    push_cast
    field_simp
  rw [scaled, scaled]
  exact div_le_div_of_nonneg_right (abs_roundDiv_sub_le_abs (num * q) hd p) hq'.le

/-- The search tries one denominator after the other. -/
theorem search_closest (hd : 0 < den) (num limit : Nat) :
    Closest (num / den) (limit + 1) ⟨(search num den limit).1, (search num den limit).2⟩ := by
  induction limit with
  | zero =>
      refine ⟨Nat.one_pos, le_rfl, fun p q hq hl => ?_, fun p q hq below => ?_⟩
      · obtain rfl : q = 1 := by omega
        have candidate := abs_sub_candidate_le hd Nat.one_pos num p
        rwa [Nat.mul_one] at candidate
      · exact absurd below (by simp only [search]; omega)
  | succ limit ih =>
      have candidate := abs_sub_candidate_le hd (Nat.succ_pos (limit + 1)) num
      rw [search, closer]
      dsimp only
      split
      · rename_i closer
        rw [distance_lt_iff hd (Nat.succ_pos _) ih.positive] at closer
        have before : ∀ (p : Int) (q : Nat), 0 < q → q < limit + 2 →
            |(num : ℝ) / den - toReal ⟨roundDiv (num * (limit + 2)) den, limit + 2⟩| < |(num : ℝ) / den - p / q| :=
          fun p q hq below => closer.trans_le (ih.closest p q hq (Nat.lt_succ_iff.mp below))
        refine ⟨Nat.succ_pos _, le_rfl, fun p q hq hl => ?_, before⟩
        obtain below | rfl : q < limit + 2 ∨ q = limit + 2 := by omega
        · exact (before p q hq below).le
        · exact candidate p
      · rename_i farther
        rw [distance_lt_iff hd (Nat.succ_pos _) ih.positive, not_lt] at farther
        refine ⟨ih.positive, ih.within.trans (Nat.le_succ _), fun p q hq hl => ?_, ih.first⟩
        obtain below | rfl : q < limit + 2 ∨ q = limit + 2 := by omega
        · exact ih.closest p q hq (Nat.lt_succ_iff.mp below)
        · exact farther.trans (candidate p)

/-! ## Within a limit -/

/-- A fraction in lowest terms whose own denominator is within the limit. -/
theorem closest_self (hd : 0 < f.den) (lowest : f.num.natAbs.Coprime f.den) (within : f.den ≤ limit) :
    Closest f.toReal limit f := by
  refine ⟨hd, within, fun p q _ _ => ?_, fun p q hq below => ?_⟩
  · rw [sub_self, abs_zero]
    exact abs_nonneg _
  · rw [sub_self, abs_zero, abs_pos, sub_ne_zero, toReal]
    intro same
    have hden : (f.den : ℝ) ≠ 0 := by exact_mod_cast hd.ne'
    have hq' : (q : ℝ) ≠ 0 := by exact_mod_cast hq.ne'
    rw [div_eq_div_iff hden hq'] at same
    have crossed : f.num * q = p * f.den := by exact_mod_cast same
    have divides : f.den ∣ f.num.natAbs * q := by
      rw [← Int.natAbs_natCast q, ← Int.natAbs_mul, crossed, Int.natAbs_mul, Int.natAbs_natCast]
      exact Dvd.intro_left _ rfl
    exact absurd (Nat.le_of_dvd hq (lowest.symm.dvd_of_dvd_mul_left divides)) below.not_ge

theorem limitDenominator_closest (hd : 0 < f.den) (lowest : f.num.natAbs.Coprime f.den) (hl : 0 < limit) :
    Closest f.toReal limit (f.limitDenominator limit) := by
  rw [limitDenominator]
  split
  · rename_i within
    exact closest_self hd lowest within
  · have found := search_closest hd f.num.natAbs (limit - 1)
    rw [Nat.sub_add_cancel hl] at found
    have size : (f.num.natAbs : ℝ) = |(f.num : ℝ)| := by rw [Nat.cast_natAbs, Int.cast_abs]
    dsimp only
    rw [size] at found
    split
    · rename_i negative
      have mirrored := found.neg
      rwa [abs_of_neg (by exact_mod_cast negative), ← neg_div, neg_neg] at mirrored
    · rename_i nonneg
      rwa [abs_of_nonneg (by exact_mod_cast not_lt.mp nonneg)] at found

/-! ## Numbers -/

/-- A finite double is a fraction in lowest terms. -/
theorem ofNumber_returns {y : Double} (hy : y.isFinite = true) :
    Returns (ofNumber (.real y)) fun f => 0 < f.den ∧ f.num.natAbs.Coprime f.den ∧ f.toReal = y.toReal := by
  cases y with
  | nan => cases hy
  | infinite => cases hy
  | finite s m e fits =>
      have hd := scaleDown_pos e
      have hg : 0 < Nat.gcd (scaleUp m e) (scaleDown e) := Nat.gcd_pos_of_pos_right _ hd
      have hgr : (Nat.gcd (scaleUp m e) (scaleDown e) : ℝ) ≠ 0 := by exact_mod_cast hg.ne'
      have size : ((scaleUp m e / Nat.gcd (scaleUp m e) (scaleDown e) : Nat) : ℝ) /
          (scaleDown e / Nat.gcd (scaleUp m e) (scaleDown e) : Nat) = m * 2 ^ e := by
        rw [Nat.cast_div (Nat.gcd_dvd_left _ _) hgr, Nat.cast_div (Nat.gcd_dvd_right _ _) hgr,
          div_div_div_cancel_right₀ hgr, scaleUp_div_scaleDown]
      have lowest := Nat.coprime_div_gcd_div_gcd hg
      refine .ok ⟨Nat.div_pos (Nat.gcd_le_right _ hd) hg, ?_, ?_⟩
      · cases s with
        | true => rwa [← Int.natAbs_natCast (scaleUp m e / _), ← Int.natAbs_neg] at lowest
        | false => exact lowest
      · rw [Double.toReal_finite, toReal]
        cases s with
        | true =>
            rw [if_pos rfl, ← size, ← neg_div]
            exact congrArg (· / _) (Int.cast_neg _)
        | false => exact size

end Surd.Fraction
