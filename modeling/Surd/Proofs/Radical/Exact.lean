import Surd.Proofs.Radical.Factor
import Surd.Proofs.Radical.Value
import Surd.Radical.Arithmetic

/-!
# Exact arithmetic of radical sums

On sums over the whole numbers the operations succeed, their results are such sums again, and the real value of a
result is what the operation says of the real values of the operands. The radicands need not be square-free.
-/

namespace Surd

/-! ## Roots -/

/-- A square leaves the root. -/
theorem mul_sqrt_of_sq_mul {c q n : Int} (hc : 0 ≤ c) (h : c ^ 2 * q = n) :
    (c : ℝ) * √(q : ℝ) = √(n : ℝ) := by
  have hc' : (0 : ℝ) ≤ c := Int.cast_nonneg hc
  rw [← h]
  push_cast
  rw [Real.sqrt_mul (sq_nonneg _), Real.sqrt_sq hc']

theorem Radical.simplify_zero {a : Number} (h : a.IsNat 0) : simplify a = .ok ⟨0, 1, false⟩ := by
  simp only [simplify, h.isZero]
  rfl

/-- The root of a whole number is what is found for its size, with its sign on the coefficient. -/
theorem Radical.simplify_of_isInt {a : Number} {v : Int} (h : a.IsInt v) (hv : v ≠ 0) :
    simplify a = .ok ⟨.int (v.sign * (rootOfNat v.natAbs).1), .int (rootOfNat v.natAbs).2, false⟩ := by
  have sign : (if v < 0 then -1 else 1) = v.sign := by
    split
    · rename_i negative
      exact (Int.sign_eq_neg_one_of_neg negative).symm
    · exact (Int.sign_eq_one_of_pos (by omega)).symm
  simp only [simplify, h.isZero, h.isNegative, h.isWhole, h.abs_truncate, decide_eq_true_eq]
  rw [if_neg hv, sign]
  rfl

theorem Radical.simplify_eq {a : Number} {n : Nat} (h : a.IsNat n) (hn : n ≠ 0) :
    simplify a = .ok ⟨.int (rootOfNat n).1, .int (rootOfNat n).2, false⟩ := by
  rw [simplify_of_isInt (Number.isNat_iff_isInt.mp h) (Int.natCast_ne_zero.mpr hn), Int.sign_natCast_of_ne_zero hn,
    one_mul, Int.natAbs_natCast]

/-- The root of a natural number is one term over the whole numbers. -/
theorem Radical.simplify_returns {a : Number} {n : Nat} (h : a.IsNat n) :
    Returns (simplify a) fun r =>
      Term.Integral ⟨r.coefficient, r.radicand⟩ ∧
        Term.toReal ⟨r.coefficient, r.radicand⟩ = √(n : ℝ) := by
  obtain rfl | hz := eq_or_ne n 0
  · rw [simplify_zero h]
    refine .ok ⟨⟨0, 1, one_pos, rfl⟩, ?_⟩
    show ((0 : Int) : ℝ) * _ = _
    rw [Int.cast_zero, zero_mul, Nat.cast_zero, Real.sqrt_zero]
  · obtain ⟨hc, hr, square⟩ := rootOfNat_spec hz
    rw [simplify_eq h hz]
    exact .ok ⟨⟨_, _, hr, rfl⟩, mul_sqrt_of_sq_mul hc.le square⟩

/-- A greatest common divisor squared, times what it leaves of both numbers, is their product. -/
theorem sq_gcd_mul (m n : Int) :
    (Int.gcd m n : Int) ^ 2 * (m / Int.gcd m n * (n / Int.gcd m n)) = m * n := by
  have hm := Int.mul_ediv_cancel' (Int.gcd_dvd_left m n)
  have hn := Int.mul_ediv_cancel' (Int.gcd_dvd_right m n)
  calc (Int.gcd m n : Int) ^ 2 * (m / Int.gcd m n * (n / Int.gcd m n))
      = Int.gcd m n * (m / Int.gcd m n) * (Int.gcd m n * (n / Int.gcd m n)) := by ring
    _ = m * n := by rw [hm, hn]

/-- The greatest common divisor of two radicands leaves the root of their product. -/
theorem gcd_mul_sqrt {m n : Int} (hm : 0 < m) (hn : 0 < n) :
    0 < m / Int.gcd m n * (n / Int.gcd m n) ∧
      ((Int.gcd m n : Int) : ℝ) * √((m / Int.gcd m n * (n / Int.gcd m n) : Int) : ℝ) =
        √(m : ℝ) * √(n : ℝ) := by
  have hg : 0 ≤ (Int.gcd m n : Int) := Int.natCast_nonneg _
  constructor
  · exact Int.mul_pos (Int.ediv_pos_of_pos_of_dvd hm hg (Int.gcd_dvd_left m n))
      (Int.ediv_pos_of_pos_of_dvd hn hg (Int.gcd_dvd_right m n))
  · rw [← Real.sqrt_mul (Int.cast_nonneg hm.le), ← Int.cast_mul]
    exact mul_sqrt_of_sq_mul hg (sq_gcd_mul m n)

/-- Either way to multiply roots gives one term whose value is the product. -/
theorem multiplyRadicands_returns {m n : Int} (hm : 0 < m) (hn : 0 < n) :
    Returns (multiplyRadicands (.int m) (.int n)) fun p =>
      Term.Integral ⟨p.1, p.2⟩ ∧ Term.toReal ⟨p.1, p.2⟩ = √(m : ℝ) * √(n : ℝ) := by
  have product : ((m * n).natAbs : Int) = m * n := Int.natAbs_of_nonneg (Int.mul_pos hm hn).le
  rw [multiplyRadicands, Number.mul_int]
  refine (Returns.ok rfl : Returns _ (· = Number.int (m * n))).bind ?_
  rintro _ rfl
  split
  · have root := Radical.simplify_returns (Number.isNat_int (m * n).natAbs)
    rw [product] at root
    refine root.bind fun r ⟨integral, value⟩ => .ok ⟨integral, ?_⟩
    rw [value, ← Real.sqrt_mul (Int.cast_nonneg hm.le), ← Int.cast_mul, ← Int.cast_natCast, product]
  · obtain ⟨positive, value⟩ := gcd_mul_sqrt hm hn
    exact .ok ⟨⟨_, _, positive, rfl⟩, value⟩

namespace RadicalSum

variable {s t a b : RadicalSum} {terms terms' : List Term} {μ : Term → ℝ} {x y : ℝ}

/-! ## Sums and multiples -/

theorem add_returns (hs : s.Denotes x) (ht : t.Denotes y) : Returns (s.add t) (Denotes · (x + y)) := by
  obtain ⟨terms, j, u, rfl, hterms, rfl⟩ := denotes_iff.mp hs
  obtain ⟨terms', k, v, rfl, hterms', rfl⟩ := denotes_iff.mp ht
  apply (ofTerms_returns (hterms.append hterms') (j + k)).mono
  intro r hr
  have regroup : ((j + k : Int) : ℝ) + (u + v) = j + u + (k + v) := by
    push_cast
    ring
  rwa [regroup] at hr

/-- Every term times a whole number, by a measure of terms that it scales. -/
theorem mapM_mul_measured (integral : ∀ t ∈ terms, t.Integral) (k : Int)
    (scaled : ∀ c r : Int, μ ⟨.int (c * k), .int r⟩ = μ ⟨.int c, .int r⟩ * x) :
    Returns (terms.mapM fun t => do return (⟨← t.coefficient.mul (.int k), t.radicand⟩ : Term)) fun ts =>
      (∀ t ∈ ts, t.Integral) ∧ (ts.map μ).sum = (terms.map μ).sum * x := by
  have each : ∀ t ∈ terms, Returns
      (do return (⟨← t.coefficient.mul (.int k), t.radicand⟩ : Term) : Except Fault Term)
      fun t' => t'.Integral ∧ μ t' = μ t * x := by
    intro t ht
    obtain ⟨c, r, hr, rfl⟩ := integral t ht
    exact .ok ⟨⟨c * k, r, hr, rfl⟩, scaled c r⟩
  refine (Returns.mapM each).mono fun ts ⟨integral, value⟩ => ⟨integral, ?_⟩
  rw [value, List.sum_map_mul_right]

/-- Every term times a whole number. -/
theorem mapM_mul_returns (h : TermsDenote terms x) (k : Int) :
    Returns (terms.mapM fun t => do return (⟨← t.coefficient.mul (.int k), t.radicand⟩ : Term))
      (TermsDenote · (x * k)) :=
  (mapM_mul_measured h.integral k fun c r => Term.toReal_int_mul c k r).mono fun _ ⟨integral, value⟩ =>
    ⟨integral, by rw [value, h.value]⟩

theorem scale_returns (hs : s.Denotes x) (k : Int) :
    Returns (s.scale (.int k)) (Denotes · (k * x)) := by
  obtain ⟨terms, j, u, rfl, hterms, rfl⟩ := denotes_iff.mp hs
  apply (mapM_mul_returns hterms k).bind
  intro terms' hterms'
  apply (ofTerms_returns hterms' (j * k)).mono
  intro r hr
  have regroup : ((j * k : Int) : ℝ) + u * k = k * (j + u) := by
    push_cast
    ring
  rwa [regroup] at hr

theorem negate_returns (hs : s.Denotes x) : Returns s.negate (Denotes · (-x)) := by
  apply (scale_returns hs (-1)).mono
  intro r hr
  rwa [Int.cast_neg, Int.cast_one, neg_one_mul] at hr

/-! ## Products -/

theorem multiplyTerms_returns {a b : Term} (ha : a.Integral) (hb : b.Integral) :
    Returns (multiplyTerms a b) fun t => t.Integral ∧ t.toReal = a.toReal * b.toReal := by
  obtain ⟨c, m, hm, rfl⟩ := ha
  obtain ⟨d, n, hn, rfl⟩ := hb
  apply (multiplyRadicands_returns hm hn).bind
  rintro ⟨e, r⟩ ⟨⟨e', r', hr, same⟩, value⟩
  obtain ⟨rfl, rfl⟩ : e = .int e' ∧ r = .int r' := Term.mk.inj same
  refine .ok ⟨⟨c * d * e', r', hr, rfl⟩, ?_⟩
  calc ((c * d * e' : Int) : ℝ) * √(r' : ℝ) = c * d * (e' * √(r' : ℝ)) := by push_cast; ring
    _ = c * d * (√(m : ℝ) * √(n : ℝ)) := congrArg ((c * d : ℝ) * ·) value
    _ = c * √(m : ℝ) * (d * √(n : ℝ)) := by ring

/-- Every term of the one list times every term of the other, by a measure of terms that is multiplicative. -/
theorem crossed_measured (integral : ∀ t ∈ terms, t.Integral) (integral' : ∀ t ∈ terms', t.Integral)
    (product : ∀ a b : Term, a.Integral → b.Integral →
      Returns (multiplyTerms a b) fun t => t.Integral ∧ μ t = μ a * μ b) :
    Returns (terms.mapM fun a => terms'.mapM (multiplyTerms a)) fun crossed =>
      (∀ t ∈ crossed.flatten, t.Integral) ∧
        (crossed.flatten.map μ).sum = (terms.map μ).sum * (terms'.map μ).sum := by
  have row : ∀ a ∈ terms, Returns (terms'.mapM (multiplyTerms a)) fun ts =>
      (∀ t ∈ ts, t.Integral) ∧ (ts.map μ).sum = μ a * (terms'.map μ).sum := by
    intro a ha
    have each := fun b hb => product a b (integral a ha) (integral' b hb)
    refine (Returns.mapM each).mono fun ts ⟨integral, value⟩ => ⟨integral, ?_⟩
    rw [value, List.sum_map_mul_left]
  refine (Returns.mapM row).mono fun crossed ⟨integral, value⟩ => ⟨?_, ?_⟩
  · intro t ht
    obtain ⟨ts, hts, ht⟩ := List.mem_flatten.mp ht
    exact integral ts hts t ht
  · rw [List.map_flatten, List.sum_flatten, List.map_map]
    exact value.trans (List.sum_map_mul_right ..)

/-- Every term of the one list times every term of the other. -/
theorem crossed_returns (h : TermsDenote terms x) (h' : TermsDenote terms' y) :
    Returns (terms.mapM fun a => terms'.mapM (multiplyTerms a))
      fun crossed => TermsDenote crossed.flatten (x * y) :=
  (crossed_measured h.integral h'.integral fun _ _ => multiplyTerms_returns).mono fun _ ⟨integral, value⟩ =>
    ⟨integral, by rw [value, h.value, h'.value]⟩

/-- Leaving out the terms where the constant is zero changes nothing. -/
theorem termsTimes_measured (integral : ∀ t ∈ terms, t.Integral) (k : Int) (zero : k = 0 → x = 0)
    (scaled : ∀ c r : Int, μ ⟨.int (c * k), .int r⟩ = μ ⟨.int c, .int r⟩ * x) :
    Returns (termsTimes terms (.int k)) fun ts =>
      (∀ t ∈ ts, t.Integral) ∧ (ts.map μ).sum = (terms.map μ).sum * x := by
  rw [termsTimes, Number.isZero_int]
  by_cases hk : k = 0
  · rw [if_pos (decide_eq_true hk), zero hk, mul_zero]
    exact .ok ⟨List.forall_mem_nil _, rfl⟩
  · rw [if_neg (by rw [decide_eq_true_eq]; exact hk)]
    exact mapM_mul_measured integral k scaled

theorem termsTimes_returns (h : TermsDenote terms x) (k : Int) :
    Returns (termsTimes terms (.int k)) (TermsDenote · (x * k)) :=
  (termsTimes_measured h.integral k (fun zero => by rw [zero, Int.cast_zero])
    fun c r => Term.toReal_int_mul c k r).mono fun _ ⟨integral, value⟩ => ⟨integral, by rw [value, h.value]⟩

/-- The value of a product: each part of the one sum meets each part of the other once. -/
theorem multiply_returns (hs : s.Denotes x) (ht : t.Denotes y) :
    Returns (s.multiply t) (Denotes · (x * y)) := by
  obtain ⟨terms, j, u, rfl, hterms, rfl⟩ := denotes_iff.mp hs
  obtain ⟨terms', k, v, rfl, hterms', rfl⟩ := denotes_iff.mp ht
  apply (crossed_returns hterms hterms').bind
  intro crossed hcrossed
  apply (termsTimes_returns hterms k).bind
  intro left hleft
  apply (termsTimes_returns hterms' j).bind
  intro right hright
  apply (ofTerms_returns ((hcrossed.append hleft).append hright) (j * k)).mono
  intro r hr
  have distributed : ((j * k : Int) : ℝ) + (u * v + u * k + v * j) = (j + u) * (k + v) := by
    push_cast
    ring
  rwa [distributed] at hr

/-! ## Powers -/

theorem powerFrom_zero (s t : RadicalSum) : powerFrom s t 0 = .ok s := by rw [powerFrom, if_pos rfl]

theorem powerFrom_of_ne_zero {n : Nat} (hn : n ≠ 0) :
    powerFrom s t n = (if n % 2 = 1 then s.multiply t else .ok s) >>= fun r =>
      if n / 2 = 0 then .ok r else t.multiply t >>= fun base => powerFrom r base (n / 2) := by
  rw [powerFrom, if_neg hn]
  by_cases odd : n % 2 = 1
  · simp only [if_pos odd]
    rfl
  · simp only [if_neg odd]
    rfl

/-- Each binary digit of the exponent keeps the result times the base to what is left of the exponent. -/
theorem powerFrom_returns (hs : s.Denotes x) (ht : t.Denotes y) (n : Nat) :
    Returns (powerFrom s t n) (Denotes · (x * y ^ n)) := by
  induction n using Nat.strong_induction_on generalizing s t x y with
  | h n ih =>
      by_cases hn : n = 0
      · rw [hn, powerFrom_zero, pow_zero, mul_one]
        exact .ok hs
      · rw [powerFrom_of_ne_zero hn]
        have digit : Returns (if n % 2 = 1 then s.multiply t else .ok s)
            (Denotes · (x * y ^ (n % 2))) := by
          split
          · rename_i odd
            rw [odd, pow_one]
            exact multiply_returns hs ht
          · rename_i even
            rw [Nat.mod_two_ne_one.mp even, pow_zero, mul_one]
            exact .ok hs
        have split : x * y ^ (n % 2) * (y * y) ^ (n / 2) = x * y ^ n := by
          rw [← pow_two, ← pow_mul, mul_assoc, ← pow_add, Nat.mod_add_div]
        apply digit.bind
        intro r hr
        by_cases half : n / 2 = 0
        · rw [if_pos half]
          rw [half, pow_zero, mul_one] at split
          rw [← split]
          exact .ok hr
        · rw [if_neg half]
          apply (multiply_returns ht ht).bind
          intro base hbase
          rw [← split]
          exact ih (n / 2) (Nat.div_lt_self (Nat.pos_of_ne_zero hn) one_lt_two) hr hbase

theorem denotes_one : (ofConstant 1).Denotes 1 :=
  denotes_iff.mpr ⟨[], 1, 0, rfl, .nil, by norm_num⟩

theorem power_eq (s : RadicalSum) (n : Nat) : s.power (.int n) = powerFrom (ofConstant 1) s n := by
  rw [power, (Number.isNat_int n).isNegative, (Number.isNat_int n).isWhole]
  rfl

theorem power_returns (hs : s.Denotes x) (n : Nat) :
    Returns (s.power (.int n)) (Denotes · (x ^ n)) := by
  have product := powerFrom_returns denotes_one hs n
  rwa [one_mul, ← power_eq] at product

/-! ## All operations -/

/-- On sums over the whole numbers nothing is rounded: each operation succeeds, with a sum over the whole numbers
whose real value is the operation on the real values. -/
theorem operations_exact (ha : a.Integral) (hb : b.Integral) (k : Int) (n : Nat) :
    Returns (a.add b) (Denotes · (a.toReal + b.toReal)) ∧
    Returns a.negate (Denotes · (-a.toReal)) ∧
    Returns (a.scale (.int k)) (Denotes · (k * a.toReal)) ∧
    Returns (a.multiply b) (Denotes · (a.toReal * b.toReal)) ∧
    Returns (a.power (.int n)) (Denotes · (a.toReal ^ n)) := by
  have ha' : a.Denotes a.toReal := ⟨ha, rfl⟩
  have hb' : b.Denotes b.toReal := ⟨hb, rfl⟩
  refine ⟨add_returns ha' hb', negate_returns ha', scale_returns ha' k, ?_, ?_⟩
  · exact multiply_returns ha' hb'
  · exact power_returns ha' n

/-- The sums `1 + 2√3` and `-1 + √12`, the second of which has a radicand with a square in it. -/
theorem operations_exact_surds :
    Integral ⟨[⟨2, 3⟩], 1⟩ ∧ Integral ⟨[⟨1, 12⟩], .int (-1)⟩ ∧
    Returns (multiply ⟨[⟨2, 3⟩], 1⟩ ⟨[⟨1, 12⟩], .int (-1)⟩)
      (Denotes · ((1 + 2 * √3) * (-1 + √12))) ∧
    Returns (power ⟨[⟨2, 3⟩], 1⟩ 5) (Denotes · ((1 + 2 * √3) ^ 5)) := by
  have ha : Integral ⟨[⟨2, 3⟩], 1⟩ :=
    ⟨⟨1, rfl⟩, List.forall_mem_singleton.mpr ⟨2, 3, by decide, rfl⟩⟩
  have hb : Integral ⟨[⟨1, 12⟩], .int (-1)⟩ :=
    ⟨⟨-1, rfl⟩, List.forall_mem_singleton.mpr ⟨1, 12, by decide, rfl⟩⟩
  have va : toReal ⟨[⟨2, 3⟩], 1⟩ = 1 + 2 * √3 := by
    show ((1 : Int) : ℝ) + (((2 : Int) : ℝ) * √((3 : Int) : ℝ) + 0) = _
    norm_num
  have vb : toReal ⟨[⟨1, 12⟩], .int (-1)⟩ = -1 + √12 := by
    show ((-1 : Int) : ℝ) + (((1 : Int) : ℝ) * √((12 : Int) : ℝ) + 0) = _
    norm_num
  obtain ⟨_, _, _, product, power⟩ := operations_exact ha hb (-2) 5
  rw [va, vb] at product
  rw [va] at power
  exact ⟨ha, hb, product, power⟩

end RadicalSum

end Surd
