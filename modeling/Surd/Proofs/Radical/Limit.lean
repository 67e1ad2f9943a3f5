import Surd.Proofs.Radical.Rationalised
import Surd.Proofs.Radical.Unique

/-!
# Factoring stays within the limit

Square-free decompositions are computed by trial division, whose cost grows with the root of the number. Recognition asks
for those of the parts of a fraction: the square of the decimal is at most 10 ^ 8, although the comparison that checks it
is of a rounded product, and the closest fraction does not pass that whole number, so the numerator is at most 10 ^ 12.
Products ask for those of products up to the limit only.

That nothing else is asked for is stated by replacing `Radical.simplify` wherever recognition, products and powers call it:
whatever agrees with it from one to the limit, and may fail beyond, gives the same results.
-/

namespace Surd

variable {x : Double} {f : Fraction} {a precision : Number} {v : ℝ}

/-! ## Squares in reach -/

/-- From 2 ^ (p + 52) on, doubles are whole multiples of 2 ^ p. -/
theorem Double.exists_toReal_eq_mul_zpow {p : Int} (hx : x.isFinite = true) (large : 2 ^ (p + 52) ≤ x.toReal) :
    ∃ n : Int, x.toReal = n * 2 ^ p := by
  obtain ⟨m, e, fits, rfl, _, value⟩ := exists_of_toReal_pos hx ((zpow_pos two_pos _).trans_le large)
  have digits : (m : ℝ) < 2 ^ (53 : Int) := by exact_mod_cast fits.1
  have place : p ≤ e := by
    have below : (2 : ℝ) ^ (p + 52) < 2 ^ (53 + e) := by
      rw [zpow_add₀ two_ne_zero 53 e]
      exact (large.trans_eq value).trans_lt (mul_lt_mul_of_pos_right digits (zpow_pos two_pos _))
    have exponents := (zpow_lt_zpow_iff_right₀ one_lt_two).mp below
    omega
  refine ⟨m * 2 ^ (e - p).toNat, ?_⟩
  rw [value]
  push_cast
  rw [mul_assoc, ← zpow_natCast, ← zpow_add₀ two_ne_zero, Int.toNat_of_nonneg (by omega), sub_add_cancel]

/-- The next double after 10 ^ 8 is 2 ^ -26 away from it. -/
theorem Double.add_unit_le_of_lt (hx : x.isFinite = true) (above : 10 ^ 8 < x.toReal) :
    10 ^ 8 + 2 ^ (-26 : Int) ≤ x.toReal := by
  obtain ⟨n, value⟩ := exists_toReal_eq_mul_zpow (p := -26) hx (le_trans (by norm_num) above.le)
  have unit : (0 : ℝ) < 2 ^ (-26 : Int) := zpow_pos two_pos _
  have whole : (10 ^ 8 : ℝ) = (10 ^ 8 * 2 ^ 26 : Int) * 2 ^ (-26 : Int) := by norm_num
  rw [value, whole] at above ⊢
  have more : (10 ^ 8 * 2 ^ 26 : Int) + 1 ≤ n := by exact_mod_cast lt_of_mul_lt_mul_right above unit.le
  have more : ((10 ^ 8 * 2 ^ 26 : Int) : ℝ) + 1 ≤ n := by exact_mod_cast more
  calc ((10 ^ 8 * 2 ^ 26 : Int) : ℝ) * 2 ^ (-26 : Int) + 2 ^ (-26 : Int)
      = (((10 ^ 8 * 2 ^ 26 : Int) : ℝ) + 1) * 2 ^ (-26 : Int) := by ring
    _ ≤ n * 2 ^ (-26 : Int) := mul_le_mul_of_nonneg_right more unit.le

/-- Ten thousand times the next double after 10 ^ 8 is farther beyond the limit than rounding takes it back. -/
theorem lt_toReal_mul_maxDenominator (hx : x.isFinite = true) (small : |x.toReal| < 2 ^ (60 : Int))
    (above : 10 ^ 8 < x.toReal) :
    (x.mul (.ofInt maxDenominator)).isFinite = true ∧ 10 ^ 12 < (x.mul (.ofInt maxDenominator)).toReal := by
  obtain ⟨hd, scaled⟩ := ofInt_maxDenominator
  have bounds : Double.Bounds (x.toReal * 10 ^ 4) (x.toReal * (Double.ofInt maxDenominator).toReal) := by
    rw [scaled]
    refine ⟨(abs_of_nonneg (by linarith)).le, ?_, ?_⟩
    · exact (zpow_le_one_of_nonpos₀ one_le_two (by decide)).trans (by linarith)
    · calc x.toReal * 10 ^ 4 < 2 ^ (60 : Int) * 2 ^ (14 : Int) :=
            mul_lt_mul ((le_abs_self _).trans_lt small) (by norm_num) (by norm_num) (by norm_num)
        _ ≤ 2 ^ (1023 : Int) := by
            rw [← zpow_add₀ two_ne_zero]
            exact zpow_le_zpow_right₀ one_le_two (by decide)
  have rounded := Double.near_mul hx hd bounds
  have below := (abs_le.mp rounded.error).1
  rw [scaled] at below
  refine ⟨rounded.isFinite, ?_⟩
  calc (10 ^ 12 : ℝ) < (10 ^ 8 + 2 ^ (-26 : Int)) * (10 ^ 4 * (1 - 2 ^ (-53 : Int))) := by norm_num
    _ ≤ x.toReal * (10 ^ 4 * (1 - 2 ^ (-53 : Int))) :=
        mul_le_mul_of_nonneg_right (Double.add_unit_le_of_lt hx above) (by norm_num)
    _ = x.toReal * 10 ^ 4 - x.toReal * 10 ^ 4 * 2 ^ (-53 : Int) := by ring
    _ ≤ (x.mul (.ofInt maxDenominator)).toReal := by linarith

/-- A square in reach is at most 10 ^ 8. -/
theorem toReal_square_le (hx : x.isFinite = true) (reach : squareInReach? (.real x) = .ok (some a)) :
    (x.mul x).toReal ≤ 10 ^ 8 := by
  obtain ⟨_, hq, small⟩ := (squareInReach?_returns hx).of_ok reach a rfl
  rw [squareInReach?_eq hx] at reach
  obtain ⟨within, _⟩ := Option.ite_none_left_eq_some.mp (Except.ok.inj reach)
  by_contra! above
  obtain ⟨finite, beyond⟩ := lt_toReal_mul_maxDenominator hq small above
  refine within ((Number.lt_iff (Number.bounded_int _) (Number.bounded_real finite)).mpr (lt_of_eq_of_lt ?_ beyond))
  norm_num [Number.toReal, trialLimit]

/-! ## Fractions in reach -/

/-- The numerator is from zero to the limit for factoring, and the denominator from one to the greatest that is tried. -/
structure Fraction.InReach (f : Fraction) : Prop where
  num_nonneg : 0 ≤ f.num
  num_le : f.num ≤ trialLimit
  den_pos : 1 ≤ f.den
  den_le : f.den ≤ maxDenominator

/-- The fraction closest to a number up to 10 ^ 8 does not pass 10 ^ 8. -/
theorem Fraction.Closest.inReach (h : Closest v maxDenominator f) (nonneg : 0 ≤ v) (le : v ≤ 10 ^ 8) : f.InReach := by
  have hden : (0 : ℝ) < f.den := by exact_mod_cast h.positive
  have value := h.toReal_le (n := 10 ^ 8) (le.trans_eq (by norm_num))
  rw [toReal, div_le_iff₀ hden] at value
  have numerator : f.num ≤ 10 ^ 8 * f.den := by exact_mod_cast value
  have within := h.within
  refine ⟨h.num_nonneg nonneg, ?_, h.positive, within⟩
  rw [maxDenominator] at within
  rw [trialLimit]
  omega

theorem closeFraction?_inReach (hx : x.isFinite = true) (reach : squareInReach? (.real x) = .ok (some a))
    (close : closeFraction? a precision = .ok (some f)) : f.InReach := by
  obtain ⟨rfl, hq, small⟩ := (squareInReach?_returns hx).of_ok reach a rfl
  have closest := (closeFraction?_returns hq small precision).of_ok close f rfl
  exact closest.inReach (nonneg_mul_self hx) (toReal_square_le hx reach)

/-! ## Another simplification -/

/-- A computation that agrees with simplification from one to the limit for factoring. Of its other results nothing is
known, it may also fail. -/
def AgreesToLimit (simplify : Number → Except Fault Radical) : Prop :=
  ∀ n : Int, 1 ≤ n → n ≤ trialLimit → simplify (.int n) = Radical.simplify (.int n)

section

variable (simplify : Number → Except Fault Radical)

/-- The root of a fraction, its parts simplified by `simplify`. -/
def Fraction.rootBy (f : Fraction) : Except Fault (Number × Number) := do
  let numerator ← simplify (.int f.num)
  let denominator ← simplify (.int f.den)
  let coefficient ← numerator.coefficient.div (← denominator.coefficient.mul denominator.radicand)
  return (coefficient, ← numerator.radicand.mul denominator.radicand)

/-- `Radical.recognise` with the root of the fraction by `simplify`. -/
def Radical.recogniseBy (a precision : Number) : Except Fault Radical := do
  let fallback : Radical := ⟨a.normalize, 1, false⟩
  let some squared ← squareInReach? a | return fallback
  if a.isZero then return ⟨0, 1, false⟩
  match ← closeFraction? squared precision with
  | none => return fallback
  | some f =>
    if f.num = 0 then return fallback
    let (coefficient, radicand) ← f.rootBy simplify
    let size ← coefficient.mul (.real (← radicand.sqrt))
    let miss ← size.sub a.abs
    if precision.le miss.abs then return fallback
    let sign : Int := if a.isNegative then -1 else 1
    return ⟨← (Number.int sign).mul coefficient.normalize, radicand, false⟩

/-- `multiplyRadicands` with the product simplified by `simplify`. -/
def multiplyRadicandsBy (a b : Number) : Except Fault (Number × Number) := do
  let product ← a.mul b
  if product.le (.int trialLimit) then
    let r ← simplify product
    return (r.coefficient, r.radicand)
  else
    match a, b with
    | .int m, .int n =>
      let g : Int := Int.gcd m n
      return (.int g, .int (m / g * (n / g)))
    | _, _ => throw .notAnInteger

namespace RadicalSum

/-- `RadicalSum.multiplyTerms` with the radicands multiplied by `simplify`. -/
def multiplyTermsBy (a b : Term) : Except Fault Term := do
  let (coefficient, radicand) ← multiplyRadicandsBy simplify a.radicand b.radicand
  let outer ← a.coefficient.mul b.coefficient
  return ⟨← outer.mul coefficient, radicand⟩

/-- `RadicalSum.multiply` with the terms multiplied by `simplify`. -/
def multiplyBy (s t : RadicalSum) : Except Fault RadicalSum := do
  let constant ← s.constant.mul t.constant
  let crossed ← s.terms.mapM fun a => t.terms.mapM (multiplyTermsBy simplify a)
  let left ← termsTimes s.terms t.constant
  let right ← termsTimes t.terms s.constant
  ofTerms (crossed.flatten ++ left ++ right) constant

/-- `RadicalSum.powerFrom` with the sums multiplied by `simplify`. -/
def powerFromBy (result base : RadicalSum) (n : Nat) : Except Fault RadicalSum :=
  if n = 0 then .ok result
  else do
    let result ← if n % 2 = 1 then result.multiplyBy simplify base else .ok result
    if n / 2 = 0 then return result
    else powerFromBy result (← base.multiplyBy simplify base) (n / 2)
termination_by n
decreasing_by omega

/-- `RadicalSum.power` with the sums multiplied by `simplify`. -/
def powerBy (s : RadicalSum) (exponent : Number) : Except Fault RadicalSum := do
  if exponent.isNegative || !exponent.isWhole then throw (.exponentRefused exponent.text)
  let n ← exponent.truncate
  powerFromBy simplify (ofConstant 1) s n.toNat

end RadicalSum

end

namespace AgreesToLimit

variable {simplify : Number → Except Fault Radical}

/-- From one to the limit the simplification is the decomposition. -/
theorem eq_ok (agrees : AgreesToLimit simplify) {n : Int} (positive : 1 ≤ n) (le : n ≤ trialLimit) :
    simplify (.int n) = .ok ⟨.int (rootOfNat n.natAbs).1, .int (rootOfNat n.natAbs).2, false⟩ := by
  obtain ⟨a, rfl⟩ := Int.eq_ofNat_of_zero_le (zero_le_one.trans positive)
  have nonzero : a ≠ 0 := by omega
  rw [agrees a positive le, Int.natAbs_natCast, Radical.simplify_eq (Number.isNat_int a) nonzero]

/-- The root of a fraction in reach. -/
theorem rootBy_eq (agrees : AgreesToLimit simplify) (h : f.InReach) (nonzero : f.num ≠ 0) :
    f.rootBy simplify = (fun r => (.real r.1, .int r.2)) <$> f.root := by
  have positive : 1 ≤ f.num := lt_of_le_of_ne h.num_nonneg nonzero.symm
  have den_pos : 1 ≤ (f.den : Int) := by exact_mod_cast h.den_pos
  have den_le : (f.den : Int) ≤ maxDenominator := by exact_mod_cast h.den_le
  rw [Fraction.rootBy, agrees.eq_ok positive h.num_le, ok_bind, agrees.eq_ok den_pos (den_le.trans (by decide)), ok_bind,
    Fraction.root, Int.natAbs_natCast]
  dsimp only
  rw [Number.mul_int, ok_bind, Number.mul_int, Number.div]
  cases Number.quotient (rootOfNat f.num.natAbs).1 ((rootOfNat f.den).1 * (rootOfNat f.den).2) <;> rfl

theorem recogniseBy_eq (agrees : AgreesToLimit simplify) (hx : x.isFinite = true) (precision : Number) :
    Radical.recogniseBy simplify (.real x) precision = Radical.recognise (.real x) precision := by
  refine bind_congr_of_ok fun o reach => ?_
  cases o with
  | none => rfl
  | some a =>
      dsimp only
      split
      · rfl
      · refine bind_congr_of_ok fun o close => ?_
        cases o with
        | none => rfl
        | some f =>
            dsimp only
            split
            · rfl
            · rename_i nonzero
              rw [agrees.rootBy_eq (closeFraction?_inReach hx reach close) nonzero]
              cases f.root <;> rfl

theorem multiplyRadicandsBy_eq (agrees : AgreesToLimit simplify) {m n : Int} (hm : 1 ≤ m) (hn : 1 ≤ n) :
    multiplyRadicandsBy simplify (.int m) (.int n) = multiplyRadicands (.int m) (.int n) := by
  rw [multiplyRadicandsBy, multiplyRadicands, Number.mul_int, ok_bind, ok_bind, Number.le_int]
  by_cases within : m * n ≤ trialLimit
  · rw [agrees (m * n) (Int.mul_pos hm hn) within]
  · rw [decide_eq_false within, if_neg Bool.false_ne_true, if_neg Bool.false_ne_true]

end AgreesToLimit

namespace RadicalSum

variable {simplify : Number → Except Fault Radical} {s t : RadicalSum}

theorem multiplyBy_eq (agrees : AgreesToLimit simplify) (hs : s.Canonical) (ht : t.Canonical) :
    s.multiplyBy simplify t = s.multiply t := by
  have each : ∀ a ∈ s.terms, ∀ b ∈ t.terms, multiplyTermsBy simplify a b = multiplyTerms a b := by
    intro a ha b hb
    obtain ⟨m, hm, first⟩ := hs.squareFree a ha
    obtain ⟨n, hn, second⟩ := ht.squareFree b hb
    rw [multiplyTermsBy, multiplyTerms, first, second, agrees.multiplyRadicandsBy_eq]
    · exact_mod_cast Nat.pos_of_ne_zero hm.ne_zero
    · exact_mod_cast Nat.pos_of_ne_zero hn.ne_zero
  have crossed : (s.terms.mapM fun a => t.terms.mapM (multiplyTermsBy simplify a)) =
      s.terms.mapM fun a => t.terms.mapM (multiplyTerms a) :=
    mapM_congr fun a ha => mapM_congr (each a ha)
  rw [multiplyBy, multiply, crossed]

/-- Each pass multiplies canonical sums, as its products are canonical again. -/
theorem powerFromBy_eq (agrees : AgreesToLimit simplify) (hs : s.Canonical) (ht : t.Canonical) (n : Nat) :
    powerFromBy simplify s t n = powerFrom s t n := by
  induction n using Nat.strong_induction_on generalizing s t with
  | h n ih =>
      rw [powerFromBy, powerFrom]
      by_cases hn : n = 0
      · rw [if_pos hn, if_pos hn]
      · rw [if_neg hn, if_neg hn, multiplyBy_eq agrees hs ht, multiplyBy_eq agrees ht ht]
        dsimp only
        have rest : ∀ r : RadicalSum, r.Canonical →
            (if n / 2 = 0 then pure r else t.multiply t >>= fun base => powerFromBy simplify r base (n / 2)) =
              if n / 2 = 0 then pure r else t.multiply t >>= fun base => powerFrom r base (n / 2) := by
          intro r hr
          split
          · rfl
          · exact bind_congr_of_ok fun base product =>
              ih (n / 2) (Nat.div_lt_self (Nat.pos_of_ne_zero hn) one_lt_two) hr ((multiply_canonical ht ht).of_ok product)
        by_cases odd : n % 2 = 1
        · rw [if_pos odd, if_pos odd]
          exact bind_congr_of_ok fun r product => rest r ((multiply_canonical hs ht).of_ok product)
        · rw [if_neg odd, if_neg odd]
          exact rest s hs

theorem powerBy_eq (agrees : AgreesToLimit simplify) (hs : s.Canonical) (exponent : Number) :
    s.powerBy simplify exponent = s.power exponent := by
  simp only [powerBy, power, powerFromBy_eq agrees (canonical_ofConstant 1) hs]

end RadicalSum

/-- **Factoring stays within the limit.** The fraction that is found for the square of a finite double, with any
precision, has a numerator from zero to the limit for factoring and a denominator from one to ten thousand. And nothing
but the square-free decompositions of numbers from one to the limit is ever asked for: any simplification that agrees on
these gives the same recognised radicals, the same products of positive radicands, and the same products and powers of
canonical sums. -/
theorem factoring_bounded :
    (∀ (x : Double) (precision squared : Number) (f : Fraction), x.isFinite = true →
      squareInReach? (.real x) = .ok (some squared) → closeFraction? squared precision = .ok (some f) →
      squared = .real (x.mul x) ∧ 0 ≤ f.num ∧ f.num ≤ trialLimit ∧ 1 ≤ f.den ∧ f.den ≤ maxDenominator) ∧
    ∀ simplify : Number → Except Fault Radical, AgreesToLimit simplify →
      (∀ (x : Double) (precision : Number), x.isFinite = true →
        Radical.recogniseBy simplify (.real x) precision = Radical.recognise (.real x) precision) ∧
      (∀ m n : Int, 1 ≤ m → 1 ≤ n →
        multiplyRadicandsBy simplify (.int m) (.int n) = multiplyRadicands (.int m) (.int n)) ∧
      ∀ s t : RadicalSum, s.Canonical → t.Canonical →
        s.multiplyBy simplify t = s.multiply t ∧ ∀ exponent : Number, s.powerBy simplify exponent = s.power exponent := by
  constructor
  · intro x precision squared f hx reach close
    obtain ⟨num_nonneg, num_le, den_pos, den_le⟩ := closeFraction?_inReach hx reach close
    exact ⟨((squareInReach?_returns hx).of_ok reach squared rfl).1, num_nonneg, num_le, den_pos, den_le⟩
  · intro simplify agrees
    refine ⟨fun x precision hx => agrees.recogniseBy_eq hx precision, fun m n => agrees.multiplyRadicandsBy_eq, ?_⟩
    intro s t hs ht
    exact ⟨RadicalSum.multiplyBy_eq agrees hs ht, RadicalSum.powerBy_eq agrees hs⟩

/-- Simplification that fails where the number is not from one to the limit for factoring. -/
def simplifyToLimit (a : Number) : Except Fault Radical :=
  if Number.le 1 a && a.le (.int trialLimit) then Radical.simplify a else .error .notAnInteger

theorem agreesToLimit_simplifyToLimit : AgreesToLimit simplifyToLimit := by
  intro n positive le
  have within : (Number.le 1 (.int n) && (Number.int n).le (.int trialLimit)) = true := by
    rw [show (1 : Number) = .int 1 from rfl, Number.le_int, Number.le_int, decide_eq_true positive, decide_eq_true le]
    rfl
  rw [simplifyToLimit, if_pos within]

/-- A decimal close to ten thousand, 639999 / 64, two radicands whose product is beyond the limit, and a fifth power. -/
theorem factoring_bounded_close :
    squareInReach? (.real (Decimal.toDouble ⟨false, 9999984375, -6⟩)) =
      .ok (some (.real (.mul (Decimal.toDouble ⟨false, 9999984375, -6⟩) (Decimal.toDouble ⟨false, 9999984375, -6⟩)))) ∧
    closeFraction? (.real (.mul (Decimal.toDouble ⟨false, 9999984375, -6⟩) (Decimal.toDouble ⟨false, 9999984375, -6⟩)))
      defaultPrecision = .ok (some ⟨409598720001, 4096⟩) ∧
    (409598720001 : Int) ≤ trialLimit ∧
    Radical.recogniseBy simplifyToLimit (.real (Decimal.toDouble ⟨false, 9999984375, -6⟩)) defaultPrecision =
      Radical.recognise (.real (Decimal.toDouble ⟨false, 9999984375, -6⟩)) defaultPrecision ∧
    multiplyRadicandsBy simplifyToLimit (.int 2000006) (.int 3000009) = multiplyRadicands (.int 2000006) (.int 3000009) ∧
    (RadicalSum.ofRoots 1 [(2, -1), (6, 3)]).powerBy simplifyToLimit 5 =
      (RadicalSum.ofRoots 1 [(2, -1), (6, 3)]).power 5 := by
  have finite : (Decimal.toDouble ⟨false, 9999984375, -6⟩).isFinite = true := rfl
  have reach : squareInReach? (.real (Decimal.toDouble ⟨false, 9999984375, -6⟩)) = .ok (some (.real
      (.mul (Decimal.toDouble ⟨false, 9999984375, -6⟩) (Decimal.toDouble ⟨false, 9999984375, -6⟩)))) := by
    decide +kernel
  have close : closeFraction? (.real (.mul (Decimal.toDouble ⟨false, 9999984375, -6⟩)
      (Decimal.toDouble ⟨false, 9999984375, -6⟩))) defaultPrecision = .ok (some ⟨409598720001, 4096⟩) := by
    decide +kernel
  have six : Squarefree 6 := by decide +kernel
  have canonical : (RadicalSum.ofRoots 1 [(2, -1), (6, 3)]).Canonical :=
    (RadicalSum.Roots.reduced ⟨by simp [Nat.prime_two.squarefree, six], by decide⟩ 1).canonical
  obtain ⟨fraction, unasked⟩ := factoring_bounded
  obtain ⟨recognised, radicands, sums⟩ := unasked simplifyToLimit agreesToLimit_simplifyToLimit
  exact ⟨reach, close, (fraction _ _ _ _ finite reach close).2.2.1, recognised _ defaultPrecision finite,
    radicands 2000006 3000009 (by decide) (by decide), (sums _ _ canonical canonical).2 5⟩

end Surd
