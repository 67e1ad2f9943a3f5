import Surd.Proofs.Double.Value
import Mathlib.Tactic.Ring

/-!
# Exact results

A quotient that a double represents is its own nearest double, so whole numbers below 2 ^ 53 are doubles exactly and
the difference of equal doubles is a zero. A quotient that is not below the least positive double does not round to
zero.
-/

namespace Surd.Double

variable {s : Bool} {num den m : Nat} {e : Int}

/-- The exponent that `nearest` takes for a positive quotient. -/
private theorem nearest_of_pos (s : Bool) (hn : 0 < num) :
    nearest s num den =
      (let exponent := max (floorLog2 num den - 52) minExponent
      let mantissa := roundDiv (num * scaleDown exponent) (scaleUp den exponent)
      if mantissa = 2 ^ 53 then pack s (2 ^ 52) (exponent + 1) else pack s mantissa exponent) :=
  if_neg hn.ne'

/-- The exponent of a double follows from the place of its first binary digit. -/
theorem Fits.exponent_eq (h : Fits m e) (hm : 0 < m) : max ((m.log2 : Int) + e - 52) minExponent = e := by
  have ⟨below, least, most, full⟩ := h
  have short : m.log2 < 53 := (Nat.log2_lt hm.ne').mpr below
  obtain full | full := full
  · have long : 52 ≤ m.log2 := (Nat.le_log2 hm.ne').mpr full
    omega
  · omega

/-- A quotient that rounds to the mantissa of a double in the place of the double is nearest to it. -/
private theorem nearest_of_exponent (s : Bool) (h : Fits m e) (hn : 0 < num)
    (exponent : max (floorLog2 num den - 52) minExponent = e)
    (mantissa : roundDiv (num * scaleDown e) (scaleUp den e) = m) : nearest s num den = finite s m e h := by
  rw [nearest_of_pos s hn]
  dsimp only
  rw [exponent, mantissa, if_neg h.1.ne, pack, dif_pos h]

/-- A quotient just below a power of two is looked for one binary place lower, and rounds up into the place of the
power. -/
private theorem nearest_of_carry (s : Bool) (h : Fits (2 ^ 52) e) (least : minExponent < e) (hn : 0 < num)
    (hd : 0 < den)
    (near : |(num : ℝ) / den - (2 ^ 53 : Nat) * 2 ^ (e - 1)| < 2 ^ (e - 1) / 2)
    (below : (num : ℝ) / den < 2 ^ (52 + e)) : nearest s num den = finite s (2 ^ 52) e h := by
  have half : (0 : ℝ) < 2 ^ (e - 1) := zpow_pos two_pos _
  have reached : (2 : ℝ) ^ (51 + e) ≤ num / den := by
    have lower : (2 : ℝ) ^ (51 + e) = 2 ^ 52 * 2 ^ (e - 1) := by
      rw [zpow_add₀ two_ne_zero, zpow_sub_one₀ two_ne_zero, zpow_ofNat]
      ring
    have away := (abs_lt.mp near).1
    push_cast at away
    rw [lower]
    linarith
  have place : floorLog2 num den = 51 + e :=
    floorLog2_eq hn hd reached (below.trans_eq (congrArg _ (by omega)))
  have exponent : max (floorLog2 num den - 52) minExponent = e - 1 := by
    rw [place]
    omega
  rw [nearest_of_pos s hn]
  dsimp only
  rw [exponent, roundDiv_scaled_eq hd near, if_pos rfl, Int.sub_add_cancel, pack, dif_pos h]

/-- A quotient rounds to a double from which it is less than the 2 ^ 54th part of that double away: even below a power
of two, where doubles lie closest together, that is less than half the way to the next one. -/
theorem nearest_eq_of_abs_lt (s : Bool) (h : Fits m e) (hm : 0 < m) (hd : 0 < den)
    (near : |(num : ℝ) / den - m * 2 ^ e| * 2 ^ 54 < m * 2 ^ e) : nearest s num den = finite s m e h := by
  have two : (0 : ℝ) < 2 := two_pos
  have power : (0 : ℝ) < 2 ^ e := zpow_pos two e
  have ⟨small, least, most, full⟩ := h
  have size : (m : ℝ) * 2 ^ e ≤ 2 ^ 53 * 2 ^ e := by
    have short : (m : ℝ) ≤ 2 ^ 53 := by exact_mod_cast small.le
    exact mul_le_mul_of_nonneg_right short power.le
  have distance : |(num : ℝ) / den - m * 2 ^ e| < 2 ^ e / 2 := by linarith
  obtain ⟨low, high⟩ := abs_lt.mp distance
  have hn : 0 < num := by
    have hden : (0 : ℝ) < den := by exact_mod_cast hd
    have one : (2 : ℝ) ^ e ≤ m * 2 ^ e := le_mul_of_one_le_left power.le (by exact_mod_cast hm)
    have : (0 : ℝ) < num := (div_pos_iff_of_pos_right hden).mp (by linarith)
    exact_mod_cast this
  have above : (num : ℝ) / den < 2 ^ ((m.log2 : Int) + e + 1) := by
    have next : (m : ℝ) + 1 ≤ 2 ^ ((m.log2 : Int) + 1) := by exact_mod_cast Nat.lt_log2_self (n := m)
    have scaled := mul_le_mul_of_nonneg_right next power.le
    rw [add_right_comm, zpow_add₀ two.ne']
    linarith
  by_cases reached : (2 : ℝ) ^ ((m.log2 : Int) + e) ≤ num / den
  · refine nearest_of_exponent s h hn ?_ (roundDiv_scaled_eq hd distance)
    rw [floorLog2_eq hn hd reached above, h.exponent_eq hm]
  have below := not_le.mp reached
  have short : m.log2 < 53 := (Nat.log2_lt hm.ne').mpr small
  obtain rfl | least := least.eq_or_lt
  · refine nearest_of_exponent s h hn (max_eq_right ?_) (roundDiv_scaled_eq hd distance)
    have place := (zpow_lt_zpow_iff_right₀ one_lt_two).mp ((floorLog2_spec hn hd).1.trans_lt below)
    omega
  -- Where the quotient is below a power of two that the double reaches, the double is that power.
  · have full := full.resolve_right least.ne'
    have long : m.log2 = 52 := by
      have := (Nat.le_log2 hm.ne').mpr full
      omega
    rw [long, Nat.cast_ofNat] at below
    obtain rfl : m = 2 ^ 52 := by
      rw [zpow_add₀ two.ne', zpow_ofNat] at below
      have bound : (m : ℝ) * 2 ^ e < (2 ^ 52 + 1) * 2 ^ e := by linarith
      have : m < 2 ^ 52 + 1 := by exact_mod_cast lt_of_mul_lt_mul_right bound power.le
      omega
    have value : ((2 ^ 52 : Nat) : ℝ) * 2 ^ e = (2 ^ 53 : Nat) * 2 ^ (e - 1) := by
      rw [zpow_sub_one₀ two.ne']
      push_cast
      ring
    rw [value] at near
    refine nearest_of_carry s h least hn hd ?_ below
    push_cast at near ⊢
    linarith

/-- A quotient that is a double is nearest to itself. -/
theorem nearest_eq_finite (s : Bool) (h : Fits m e) (hm : 0 < m) (hd : 0 < den)
    (hq : (num : ℝ) / den = m * 2 ^ e) : nearest s num den = finite s m e h := by
  apply nearest_eq_of_abs_lt s h hm hd
  rw [hq, sub_self, abs_zero, zero_mul]
  have : (0 : ℝ) < m := by exact_mod_cast hm
  positivity

/-- A quotient that is at least the least positive double lies above zero also after rounding. -/
theorem zero_lt_nearest (hn : 0 < num) (hd : 0 < den)
    (hq : (2 : ℝ) ^ minExponent ≤ num / den) :
    (zero false).compare? (nearest false num den) = some .lt := by
  have packed : ∀ (m : Nat) (e : Int), 0 < m →
      (zero false).compare? (pack false m e) = some .lt := by
    intro m e hm
    rw [pack]
    split
    · rw [compare?_of_isFinite rfl rfl, toReal_zero, toReal_finite]
      have positive : (0 : ℝ) < m * 2 ^ e := by
        have : (0 : ℝ) < m := by exact_mod_cast hm
        positivity
      exact congrArg some (compare_lt_iff_lt.mpr positive)
    · rfl
  have reached : (2 : ℝ) ^ max (floorLog2 num den - 52) minExponent ≤ num / den := by
    obtain h | h := max_choice (floorLog2 num den - 52) minExponent <;> rw [h]
    · exact (zpow_le_zpow_right₀ one_le_two (by omega)).trans (floorLog2_spec hn hd).1
    · exact hq
  have mantissa := roundDiv_pos (scaleUp_pos hd _) ((zpow_le_div_iff hd _).mp reached)
  rw [nearest_of_pos false hn]
  dsimp only
  split
  · exact packed _ _ (Nat.two_pow_pos 52)
  · exact packed _ _ mantissa

/-- A whole number below 2 ^ 53 is a double exactly. -/
theorem ofInt_exact {n : Int} (hn : n.natAbs < 2 ^ 53) :
    (ofInt n).isFinite = true ∧ (ofInt n).toReal = n := by
  obtain rfl | hz := eq_or_ne n 0
  · exact ⟨rfl, by simp [ofInt, ofScaled]⟩
  have hpos : 0 < n.natAbs := Int.natAbs_pos.mpr hz
  have short : n.natAbs.log2 < 53 := (Nat.log2_lt hpos.ne').mpr hn
  -- The digits are shifted to the left until there are 53 of them.
  let shift := 52 - n.natAbs.log2
  have low : 2 ^ 52 ≤ n.natAbs * 2 ^ shift := by
    calc 2 ^ 52 = 2 ^ n.natAbs.log2 * 2 ^ shift := by rw [← pow_add]; congr 1; omega
      _ ≤ n.natAbs * 2 ^ shift := Nat.mul_le_mul_right _ (Nat.log2_self_le hpos.ne')
  have high : n.natAbs * 2 ^ shift < 2 ^ 53 := by
    calc n.natAbs * 2 ^ shift < 2 ^ (n.natAbs.log2 + 1) * 2 ^ shift :=
          Nat.mul_lt_mul_of_pos_right Nat.lt_log2_self (Nat.two_pow_pos _)
      _ = 2 ^ 53 := by rw [← pow_add]; congr 1; omega
  have fits : Fits (n.natAbs * 2 ^ shift) (-shift) :=
    ⟨high, by rw [minExponent]; omega, by rw [maxExponent]; omega, .inl low⟩
  have value : ((n.natAbs * 2 ^ shift : Nat) : ℝ) * 2 ^ (-(shift : Int)) = n.natAbs := by
    push_cast
    rw [mul_assoc, ← zpow_natCast, ← zpow_add₀ two_ne_zero, add_neg_cancel, zpow_zero, mul_one]
  have quotient : ((scaleUp n.natAbs 0 : Nat) : ℝ) / (scaleDown 0 : Nat) =
      (n.natAbs * 2 ^ shift : Nat) * 2 ^ (-(shift : Int)) := by
    rw [value, scaleUp_div_scaleDown, zpow_zero, mul_one]
  rw [ofInt, ofScaled, if_neg hz,
    nearest_eq_finite _ fits (by positivity) (scaleDown_pos 0) quotient]
  refine ⟨rfl, ?_⟩
  rw [toReal_finite, value, Nat.cast_natAbs]
  obtain neg | pos := lt_or_ge n 0
  · rw [decide_eq_true neg, if_pos rfl, abs_of_neg neg]
    push_cast
    exact neg_neg _
  · rw [decide_eq_false (not_lt.mpr pos), if_neg Bool.false_ne_true, abs_of_nonneg pos]

/-- A positive finite double has the sign plus. -/
theorem exists_of_toReal_pos {x : Double} (hx : x.isFinite = true) (h : 0 < x.toReal) :
    ∃ m e fits, x = finite false m e fits ∧ 0 < m ∧ x.toReal = m * 2 ^ e := by
  cases x with
  | nan => cases hx
  | infinite => cases hx
  | finite s m e fits =>
      have size : 0 ≤ (m : ℝ) * 2 ^ e := by positivity
      rw [toReal_finite] at h ⊢
      cases s with
      | true =>
          rw [if_pos rfl] at h
          linarith
      | false =>
          rw [if_neg Bool.false_ne_true] at h ⊢
          refine ⟨m, e, fits, rfl, Nat.pos_of_ne_zero fun hz => ?_, rfl⟩
          rw [hz, Nat.cast_zero, zero_mul] at h
          exact lt_irrefl 0 h

/-- A product of positive doubles that does not fall below the least positive double lies above zero. -/
theorem zero_lt_mul {x y : Double} (hx : x.isFinite = true) (hy : y.isFinite = true)
    (hx0 : 0 < x.toReal) (hy0 : 0 < y.toReal) (h : (2 : ℝ) ^ minExponent ≤ x.toReal * y.toReal) :
    (zero false).compare? (x.mul y) = some .lt := by
  obtain ⟨m, d, hd, rfl, hm, hmx⟩ := exists_of_toReal_pos hx hx0
  obtain ⟨n, e, he, rfl, hn, hny⟩ := exists_of_toReal_pos hy hy0
  refine zero_lt_nearest (scaleUp_pos (Nat.mul_pos hm hn) _) (scaleDown_pos _) ?_
  rw [scaleUp_div_scaleDown, zpow_add₀ two_ne_zero]
  rw [hmx, hny] at h
  calc (2 : ℝ) ^ minExponent ≤ m * 2 ^ d * (n * 2 ^ e) := h
    _ = (m * n : Nat) * (2 ^ d * 2 ^ e) := by push_cast; ring

@[simp] theorem significand_neg (x : Double) : x.neg.significand = -x.significand := by
  cases x with
  | nan => rfl
  | infinite => rfl
  | finite s => cases s <;> simp [neg, significand]

/-- The difference of doubles with the same value is a zero. -/
theorem sub_eq_zero {x y : Double} (hx : x.isFinite = true) (hy : y.isFinite = true)
    (h : x.toReal = y.toReal) : ∃ t, x.sub y = zero t := by
  cases x with
  | nan => cases hx
  | infinite => cases hx
  | finite s m d hd =>
      cases y with
      | nan => cases hy
      | infinite => cases hy
      | finite t n e he =>
          have equal := (compareScaled_eq (finite s m d hd).significand d
            (finite t n e he).significand e).trans (compare_eq_iff_eq.mpr h)
          rw [compareScaled, compare_eq_iff_eq] at equal
          have places : (d - min d e).toNat = (d - e).toNat ∧
              (e - min d e).toNat = (e - d).toNat := by omega
          refine ⟨s && !t, ?_⟩
          rw [sub, neg, add, places.1, places.2, ofScaled, if_pos]
          rw [show (finite (!t) n e he).significand = -(finite t n e he).significand from
            significand_neg (finite t n e he), equal]
          ring

end Surd.Double
