import Surd.Proofs.Radical.Exact
import Surd.Proofs.Radical.Squarefree

/-!
# Uniqueness of the square-free decomposition

A nonzero whole number is in one way only a signed square times a square-free number. So it does not matter how a root
is found: the shortcut for squares gives what trial division gives (`Radical.simplify_decomposes`), and factoring the
product of two square-free radicands gives what their greatest common divisor gives (`multiplyRadicands_gcd`).
-/

namespace Surd

/-- `c · √r` is the square root of the size of `v` with the sign of `v`, and no square is left in `r`. -/
structure Decomposes (v c r : Int) : Prop where
  square : c ^ 2 * r = |v|
  positive : 1 ≤ r
  squarefree : Squarefree r
  sign : c.sign = v.sign

/-- Of two squares that leave square-free numbers of the same number, each divides the other: what their roots do not
share is squared in what the other leaves. -/
theorem dvd_of_sq_mul_eq {c d q r : Nat} (hc : c ≠ 0) (hr : Squarefree r) (h : c ^ 2 * q = d ^ 2 * r) : c ∣ d := by
  obtain ⟨g, c', d', hg, coprime, rfl, rfl⟩ := Nat.exists_coprime' (Nat.gcd_pos_of_pos_left d (Nat.pos_of_ne_zero hc))
  have reduced : c' ^ 2 * q = d' ^ 2 * r := by
    apply Nat.eq_of_mul_eq_mul_left (pow_pos hg 2)
    linarith
  have square : c' * c' ∣ r := by
    rw [← pow_two]
    exact (coprime.pow 2 2).dvd_of_dvd_mul_left ⟨q, reduced.symm⟩
  rw [Nat.isUnit_iff.mp (hr c' square), one_mul]
  exact Nat.dvd_mul_left g d'

namespace Decomposes

variable {v c d q r : Int}

theorem natAbs_eq (h : Decomposes v c r) : c.natAbs ^ 2 * r.natAbs = v.natAbs := by
  rw [← Int.natAbs_pow, ← Int.natAbs_mul, h.square, Int.natAbs_abs]

theorem ne_zero (h : Decomposes v c r) (hv : v ≠ 0) : c ≠ 0 := by
  rintro rfl
  exact hv (Int.sign_eq_zero_iff_zero.mp (h.sign.symm.trans Int.sign_zero))

theorem unique (h : Decomposes v c r) (h' : Decomposes v d q) (hv : v ≠ 0) : c = d ∧ r = q := by
  have same : c.natAbs ^ 2 * r.natAbs = d.natAbs ^ 2 * q.natAbs := h.natAbs_eq.trans h'.natAbs_eq.symm
  have hc : c.natAbs ≠ 0 := Int.natAbs_ne_zero.mpr (h.ne_zero hv)
  have hd : d.natAbs ≠ 0 := Int.natAbs_ne_zero.mpr (h'.ne_zero hv)
  have size : c.natAbs = d.natAbs := Nat.dvd_antisymm
    (dvd_of_sq_mul_eq hc (Int.squarefree_natAbs.mpr h'.squarefree) same)
    (dvd_of_sq_mul_eq hd (Int.squarefree_natAbs.mpr h.squarefree) same.symm)
  have coefficient : c = d := by
    rw [← Int.sign_mul_natAbs c, ← Int.sign_mul_natAbs d, h.sign, h'.sign, size]
  refine ⟨coefficient, ?_⟩
  subst coefficient
  exact mul_left_cancel₀ (pow_ne_zero 2 (h.ne_zero hv)) (h.square.trans h'.square.symm)

/-- A decomposition of the size is one of the number when the coefficient takes the sign. -/
theorem sign_mul (hv : v ≠ 0) (hc : 0 < c) (hr : 0 < r) (square : c ^ 2 * r = v.natAbs) (free : Squarefree r) :
    Decomposes v (v.sign * c) r where
  square := by
    rw [← Int.natAbs_sq, Int.natAbs_mul, Int.natAbs_sign_of_ne_zero hv, one_mul, Int.natAbs_sq, square,
      Int.natCast_natAbs]
  positive := hr
  squarefree := free
  sign := by rw [Int.sign_mul, Int.sign_sign, Int.sign_eq_one_of_pos hc, mul_one]

end Decomposes

/-! ## Roots -/

section

variable {v : Int}

theorem decomposes_rootOfNat (hv : v ≠ 0) :
    Decomposes v (v.sign * (rootOfNat v.natAbs).1) (rootOfNat v.natAbs).2 := by
  have hn : v.natAbs ≠ 0 := Int.natAbs_ne_zero.mpr hv
  obtain ⟨hc, hr, square⟩ := rootOfNat_spec hn
  exact .sign_mul hv hc hr square (squarefree_rootOfNat hn)

theorem decomposes_rootOfNat_cast {n : Nat} (hn : n ≠ 0) : Decomposes n (rootOfNat n).1 (rootOfNat n).2 := by
  have found := decomposes_rootOfNat (Int.natCast_ne_zero.mpr hn)
  rwa [Int.sign_natCast_of_ne_zero hn, one_mul, Int.natAbs_natCast] at found

/-- Trial division alone, squares included. -/
theorem decomposes_pairFactors (hv : v ≠ 0) :
    Decomposes v (v.sign * (pairFactors (primeFactors v.natAbs)).1) (pairFactors (primeFactors v.natAbs)).2 := by
  have hn : v.natAbs ≠ 0 := Int.natAbs_ne_zero.mpr hv
  obtain ⟨hc, hr⟩ := pairFactors_pos (primeFactors_pos v.natAbs)
  have square := (pairFactors_mul (primeFactors v.natAbs)).trans (primeFactors_prod hn)
  exact .sign_mul hv hc hr square (squarefree_pairFactors (primeFactors_prime hn))

/-- The root of a nonzero whole number, given as such or as a double, is its square-free decomposition with whole
numbers, the only one that there is, and trial division finds the same pair for squares as well. -/
theorem Radical.simplify_decomposes {a : Number} (h : a.equal (.int v) = true) (hv : v ≠ 0) :
    ∃ c r : Int, simplify a = .ok ⟨.int c, .int r, false⟩ ∧ Decomposes v c r ∧
      (∀ d q, Decomposes v d q → d = c ∧ q = r) ∧
      c = v.sign * (pairFactors (primeFactors v.natAbs)).1 ∧ r = (pairFactors (primeFactors v.natAbs)).2 := by
  have found := decomposes_rootOfNat hv
  refine ⟨_, _, simplify_of_isInt (Number.isInt_of_equal h) hv, found, ?_, ?_⟩
  · exact fun d q other => other.unique found hv
  · exact found.unique (decomposes_pairFactors hv) hv

/-- The root of the double minus 72 is minus six times that of two. -/
theorem Radical.simplify_decomposes_double :
    (Number.real (.ofInt (-72))).equal (.int (-72)) = true ∧ (-72 : Int) ≠ 0 ∧
    simplify (.real (.ofInt (-72))) = .ok ⟨.int (-6), 2, false⟩ := by
  have equal : (Number.real (.ofInt (-72))).equal (.int (-72)) = true := by decide +kernel
  obtain ⟨c, r, root, _, only, _⟩ := simplify_decomposes equal (by decide)
  obtain ⟨rfl, rfl⟩ := only (-6) 2 ⟨by decide, by decide, Int.prime_two.squarefree, by decide⟩
  exact ⟨equal, by decide, root⟩

end

/-! ## Products of roots -/

section

variable {m n : Nat}

/-- The greatest common divisor of two square-free numbers leaves the root of their product. -/
theorem decomposes_gcd (hm : Squarefree m) (hn : Squarefree n) :
    Decomposes (m * n : Nat) (m.gcd n) (m / m.gcd n * (n / m.gcd n) : Nat) where
  square := by
    rw [Nat.abs_cast]
    push_cast
    exact sq_gcd_mul m n
  positive := by
    have positive := Nat.pos_of_ne_zero (squarefree_div_gcd_mul hm hn).ne_zero
    exact_mod_cast positive
  squarefree := Int.squarefree_natCast.mpr (squarefree_div_gcd_mul hm hn)
  sign := by
    have positive : m.gcd n ≠ 0 := Nat.gcd_ne_zero_left hm.ne_zero
    rw [Int.sign_natCast_of_ne_zero positive, Int.sign_natCast_of_ne_zero (Nat.mul_ne_zero hm.ne_zero hn.ne_zero)]

/-- Either way to multiply the roots of square-free numbers takes out their greatest common divisor. -/
theorem multiplyRadicands_of_squarefree (hm : Squarefree m) (hn : Squarefree n) :
    multiplyRadicands (.int m) (.int n) = .ok (.int (m.gcd n), .int (m / m.gcd n * (n / m.gcd n) : Nat)) := by
  have product : ((m * n : Nat) : Int) ≠ 0 := Int.natCast_ne_zero.mpr (Nat.mul_ne_zero hm.ne_zero hn.ne_zero)
  rw [multiplyRadicands, Number.mul_int, ← Int.natCast_mul, ok_bind]
  split
  · obtain ⟨coefficient, radicand⟩ := (decomposes_rootOfNat product).unique (decomposes_gcd hm hn) product
    rw [Radical.simplify_of_isInt (Number.isInt_int _) product, coefficient, radicand]
    rfl
  · show Except.ok (Number.int (Int.gcd m n), Number.int (m / (Int.gcd m n : Int) * (n / (Int.gcd m n : Int)))) = _
    rw [Int.gcd_natCast_natCast]
    push_cast
    rfl

/-- The product of the roots of two square-free numbers, whether it is factored or too large for that, is their greatest
common divisor times the root of what it leaves of both. That is a square-free number again, and with the square of the
divisor it makes up the product. -/
theorem multiplyRadicands_gcd (hm : Squarefree m) (hn : Squarefree n) :
    multiplyRadicands (.int m) (.int n) = .ok (.int (m.gcd n), .int (m / m.gcd n * (n / m.gcd n) : Nat)) ∧
    0 < m / m.gcd n * (n / m.gcd n) ∧ Squarefree (m / m.gcd n * (n / m.gcd n)) ∧
    m.gcd n ^ 2 * (m / m.gcd n * (n / m.gcd n)) = m * n := by
  have free := squarefree_div_gcd_mul hm hn
  refine ⟨multiplyRadicands_of_squarefree hm hn, Nat.pos_of_ne_zero free.ne_zero, free, ?_⟩
  exact_mod_cast sq_gcd_mul m n

/-- The product of `√6` and `√10`, which is factored, and that of `√2000006` and `√3000009`, which is not. -/
theorem multiplyRadicands_gcd_large :
    Squarefree 6 ∧ Squarefree 10 ∧ Squarefree 2000006 ∧ Squarefree 3000009 ∧
    multiplyRadicands 6 10 = .ok (2, 15) ∧ multiplyRadicands 2000006 3000009 = .ok (1000003, 6) := by
  have six : Squarefree 6 := by decide +kernel
  have ten : Squarefree 10 := by decide +kernel
  have first : Squarefree 2000006 := by decide +kernel
  have second : Squarefree 3000009 := by decide +kernel
  exact ⟨six, ten, first, second, (multiplyRadicands_gcd six ten).1, (multiplyRadicands_gcd first second).1⟩

end

end Surd
