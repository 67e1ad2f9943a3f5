import Mathlib

/-!
# Independence of square roots

The square roots of square-free numbers are linearly independent over the rationals. The numbers are taken as products of
sets of primes, and the primes are adjoined one after the other: the root of a number that is prime to all primes
adjoined so far is not in the field they generate, so each new root doubles the dimension.
-/

namespace Surd

/-! ## Adjoining a root -/

theorem mul_self_sqrt (n : ℕ) : √(n : ℝ) * √(n : ℝ) = n :=
  Real.mul_self_sqrt (Nat.cast_nonneg n)

/-- The sums `a + b√n` with `a` and `b` in a field. -/
def adjoinRoot (K : Subfield ℝ) (n : ℕ) : Subfield ℝ where
  carrier := {x | ∃ a ∈ K, ∃ b ∈ K, x = a + b * √(n : ℝ)}
  zero_mem' := ⟨0, K.zero_mem, 0, K.zero_mem, by ring⟩
  one_mem' := ⟨1, K.one_mem, 0, K.zero_mem, by ring⟩
  add_mem' := by
    rintro _ _ ⟨a, ha, b, hb, rfl⟩ ⟨c, hc, d, hd, rfl⟩
    exact ⟨a + c, K.add_mem ha hc, b + d, K.add_mem hb hd, by ring⟩
  neg_mem' := by
    rintro _ ⟨a, ha, b, hb, rfl⟩
    exact ⟨-a, K.neg_mem ha, -b, K.neg_mem hb, by ring⟩
  mul_mem' := by
    rintro _ _ ⟨a, ha, b, hb, rfl⟩ ⟨c, hc, d, hd, rfl⟩
    refine ⟨a * c + b * d * n, ?_, a * d + b * c, ?_, ?_⟩
    · exact K.add_mem (K.mul_mem ha hc) (K.mul_mem (K.mul_mem hb hd) (natCast_mem K n))
    · exact K.add_mem (K.mul_mem ha hd) (K.mul_mem hb hc)
    · linear_combination b * d * mul_self_sqrt n
  inv_mem' := by
    rintro _ ⟨a, ha, b, hb, rfl⟩
    -- The conjugate `a - b√n` makes the denominator rational unless it is zero, and then `√n` is not needed.
    have conjugate : (a + b * √(n : ℝ)) * (a - b * √(n : ℝ)) = a * a - b * b * n := by
      linear_combination -(b * b) * mul_self_sqrt n
    by_cases norm : a * a - b * b * n = 0
    · rw [norm, mul_eq_zero] at conjugate
      obtain zero | same := conjugate
      · exact ⟨0, K.zero_mem, 0, K.zero_mem, by rw [zero]; ring⟩
      · refine ⟨(a + a)⁻¹, K.inv_mem (K.add_mem ha ha), 0, K.zero_mem, ?_⟩
        rw [← sub_eq_zero.mp same, zero_mul, add_zero]
    · have hnorm := K.sub_mem (K.mul_mem ha ha) (K.mul_mem (K.mul_mem hb hb) (natCast_mem K n))
      refine ⟨a / (a * a - b * b * n), K.div_mem ha hnorm, -b / (a * a - b * b * n),
        K.div_mem (K.neg_mem hb) hnorm, ?_⟩
      refine inv_eq_of_mul_eq_one_right ?_
      calc (a + b * √(n : ℝ)) * (a / (a * a - b * b * n) + -b / (a * a - b * b * n) * √(n : ℝ))
          = (a + b * √(n : ℝ)) * (a - b * √(n : ℝ)) / (a * a - b * b * n) := by ring
        _ = 1 := by rw [conjugate, div_self norm]

theorem le_adjoinRoot (K : Subfield ℝ) (n : ℕ) : K ≤ adjoinRoot K n := by
  intro x hx
  exact ⟨x, hx, 0, K.zero_mem, by ring⟩

theorem sqrt_mem_adjoinRoot (K : Subfield ℝ) (n : ℕ) : √(n : ℝ) ∈ adjoinRoot K n :=
  ⟨0, K.zero_mem, 1, K.one_mem, by ring⟩

/-- Where `√n` is new, sums have only one form. -/
theorem eq_zero_of_add_mul_sqrt {K : Subfield ℝ} {n : ℕ} (hn : √(n : ℝ) ∉ K) {a b : ℝ} (ha : a ∈ K)
    (hb : b ∈ K) (h : a + b * √(n : ℝ) = 0) : a = 0 ∧ b = 0 := by
  have hb0 : b = 0 := by
    by_contra hb0
    refine hn ?_
    have root : √(n : ℝ) = -a / b := by
      rw [eq_div_iff hb0]
      linear_combination h
    rw [root]
    exact K.div_mem (K.neg_mem ha) hb
  rw [hb0, zero_mul, add_zero] at h
  exact ⟨h, hb0⟩

/-! ## Sets of primes -/

/-- The product of a set of numbers under the root. -/
noncomputable def rootOfProduct (T : Finset ℕ) : ℝ := √((∏ p ∈ T, p : ℕ) : ℝ)

@[simp] theorem rootOfProduct_empty : rootOfProduct ∅ = 1 := by
  rw [rootOfProduct, Finset.prod_empty, Nat.cast_one, Real.sqrt_one]

theorem rootOfProduct_insert {p : ℕ} {T : Finset ℕ} (hp : p ∉ T) :
    rootOfProduct (insert p T) = √(p : ℝ) * rootOfProduct T := by
  rw [rootOfProduct, Finset.prod_insert hp, Nat.cast_mul, Real.sqrt_mul (Nat.cast_nonneg p)]
  rfl

/-- A field that has the roots of the products of a set of primes, and of no other square-free number; and these
roots are independent. -/
structure Separates (K : Subfield ℝ) (S : Finset ℕ) : Prop where
  root : ∀ T ⊆ S, rootOfProduct T ∈ K
  new : ∀ q : ℕ, Squarefree q → q ≠ 1 → (∀ p ∈ S, q.Coprime p) → √(q : ℝ) ∉ K
  independent : ∀ c : Finset ℕ → ℚ, ∑ T ∈ S.powerset, (c T : ℝ) * rootOfProduct T = 0 →
    ∀ T ⊆ S, c T = 0

theorem separates_empty : Separates (Rat.castHom ℝ).fieldRange ∅ where
  root T hT := by
    rw [Finset.subset_empty.mp hT, rootOfProduct_empty]
    exact one_mem _
  new q square_free hq _ := by
    intro rational
    have square : IsSquare q := by
      by_contra irrational
      exact irrational_sqrt_natCast_iff.mpr irrational rational
    obtain ⟨m, rfl⟩ := square
    obtain rfl := Nat.isUnit_iff.mp (square_free m dvd_rfl)
    exact hq rfl
  independent c h T hT := by
    rw [Finset.powerset_empty, Finset.sum_singleton, rootOfProduct_empty, mul_one] at h
    rw [Finset.subset_empty.mp hT]
    exact_mod_cast h

/-- The root of a number that is prime to the primes adjoined so far stays new when one more prime is adjoined. -/
theorem Separates.new_insert {K : Subfield ℝ} {S : Finset ℕ} (h : Separates K S) {p : ℕ}
    (prime : p.Prime) (hp : ∀ r ∈ S, p.Coprime r) {q : ℕ} (square_free : Squarefree q) (hq : q ≠ 1)
    (coprime : q.Coprime p) (hqS : ∀ r ∈ S, q.Coprime r) : √(q : ℝ) ∉ adjoinRoot K p := by
  rintro ⟨a, ha, b, hb, root⟩
  by_cases hb0 : b = 0
  · -- `√q` would be in the smaller field,
    refine h.new q square_free hq hqS ?_
    rwa [root, hb0, zero_mul, add_zero]
  by_cases ha0 : a = 0
  · -- or `√(qp)` would,
    refine h.new (q * p) (Nat.squarefree_mul coprime |>.mpr ⟨square_free, prime.squarefree⟩) ?_ ?_ ?_
    · exact fun one => prime.ne_one (Nat.eq_one_of_mul_eq_one_left one)
    · exact fun r hr => Nat.Coprime.mul_left (hqS r hr) (hp r hr)
    · rw [Nat.cast_mul, Real.sqrt_mul (Nat.cast_nonneg q), root, ha0, zero_add, mul_assoc,
        mul_self_sqrt]
      exact K.mul_mem hb (natCast_mem K p)
  · -- or `√p` would.
    refine h.new p prime.squarefree prime.ne_one hp ?_
    have quotient : √(p : ℝ) = (q - a * a - b * b * p) / (a * b + a * b) := by
      have square := mul_self_sqrt q
      rw [root] at square
      rw [eq_div_iff (by rw [← two_mul]; positivity)]
      linear_combination square - b * b * mul_self_sqrt p
    rw [quotient]
    have product := K.mul_mem ha hb
    refine K.div_mem ?_ (K.add_mem product product)
    exact K.sub_mem (K.sub_mem (natCast_mem K q) (K.mul_mem ha ha))
      (K.mul_mem (K.mul_mem hb hb) (natCast_mem K p))

theorem Separates.insert {K : Subfield ℝ} {S : Finset ℕ} (h : Separates K S) {p : ℕ}
    (prime : p.Prime) (hpS : p ∉ S) (hp : ∀ r ∈ S, p.Coprime r) :
    Separates (adjoinRoot K p) (insert p S) where
  root T hT := by
    have hrest : T.erase p ⊆ S := Finset.subset_insert_iff.mp hT
    by_cases hpT : p ∈ T
    · rw [← Finset.insert_erase hpT, rootOfProduct_insert (Finset.notMem_erase p T)]
      exact mul_mem (sqrt_mem_adjoinRoot K p) (le_adjoinRoot K p (h.root _ hrest))
    · rw [← Finset.erase_eq_of_notMem hpT]
      exact le_adjoinRoot K p (h.root _ hrest)
  new q square_free hq coprime := by
    obtain ⟨hqp, hqS⟩ := (Finset.forall_mem_insert _ _ _).mp coprime
    exact h.new_insert prime hp square_free hq hqp hqS
  independent c zero T hT := by
    have inK : ∀ c : Finset ℕ → ℚ, ∑ T ∈ S.powerset, (c T : ℝ) * rootOfProduct T ∈ K := by
      intro c
      refine K.sum_mem fun T hT => K.mul_mem (SubfieldClass.ratCast_mem K _) (h.root T (Finset.mem_powerset.mp hT))
    -- The sets with `p` and those without it make two sums in the smaller field.
    rw [Finset.sum_powerset_insert hpS] at zero
    have factored : ∑ T ∈ S.powerset, (c (Insert.insert p T) : ℝ) * rootOfProduct (Insert.insert p T) =
        (∑ T ∈ S.powerset, (c (Insert.insert p T) : ℝ) * rootOfProduct T) * √(p : ℝ) := by
      rw [Finset.sum_mul]
      refine Finset.sum_congr rfl fun T hT => ?_
      rw [rootOfProduct_insert fun hpT => hpS (Finset.mem_powerset.mp hT hpT)]
      ring
    rw [factored] at zero
    obtain ⟨without, with_⟩ := eq_zero_of_add_mul_sqrt
      (h.new p prime.squarefree prime.ne_one hp) (inK c) (inK fun T => c (Insert.insert p T)) zero
    have hrest : T.erase p ⊆ S := Finset.subset_insert_iff.mp hT
    by_cases hpT : p ∈ T
    · rw [← Finset.insert_erase hpT]
      exact h.independent (fun T => c (Insert.insert p T)) with_ _ hrest
    · rw [← Finset.erase_eq_of_notMem hpT]
      exact h.independent c without _ hrest

theorem exists_separates {S : Finset ℕ} (hS : ∀ p ∈ S, p.Prime) : ∃ K, Separates K S := by
  induction S using Finset.induction_on with
  | empty => exact ⟨_, separates_empty⟩
  | insert p S hp ih =>
      obtain ⟨prime, primes⟩ := (Finset.forall_mem_insert _ _ _).mp hS
      obtain ⟨K, hK⟩ := ih primes
      refine ⟨_, hK.insert prime hp ?_⟩
      intro r hr
      refine (Nat.coprime_primes prime (primes r hr)).mpr ?_
      rintro rfl
      exact hp hr

/-! ## Square-free numbers -/

/-- The square roots of square-free numbers are linearly independent over the rationals. -/
theorem linearIndepOn_sqrt :
    LinearIndepOn ℚ (fun n : ℕ => √(n : ℝ)) {n | Squarefree n} := by
  rw [linearIndepOn_iff_linearIndepOn_finset]
  intro t square_free
  rw [linearIndepOn_finset_iff]
  intro f zero n hn
  have prime : ∀ p ∈ t.biUnion Nat.primeFactors, p.Prime := by
    intro p hp
    obtain ⟨n, _, hpn⟩ := Finset.mem_biUnion.mp hp
    exact Nat.prime_of_mem_primeFactors hpn
  have product : ∀ n ∈ t, ∏ p ∈ n.primeFactors, p = n := fun n hn =>
    Nat.prod_primeFactors_of_squarefree (square_free hn)
  have subset : ∀ n ∈ t, n.primeFactors ⊆ t.biUnion Nat.primeFactors := fun n hn =>
    Finset.subset_biUnion_of_mem Nat.primeFactors hn
  obtain ⟨K, hK⟩ := exists_separates prime
  -- A number stands for the set of its prime factors; the other sets of primes get the coefficient zero.
  let c : Finset ℕ → ℚ := fun T => if ∏ p ∈ T, p ∈ t then f (∏ p ∈ T, p) else 0
  have sum : ∑ T ∈ (t.biUnion Nat.primeFactors).powerset, (c T : ℝ) * rootOfProduct T = 0 := by
    rw [← zero]
    symm
    refine Finset.sum_of_injOn Nat.primeFactors ?_ ?_ ?_ ?_
    · intro m hm n hn same
      rw [← product m hm, ← product n hn, same]
    · intro n hn
      exact Finset.mem_powerset.mpr (subset n hn)
    · intro T hT other
      have primes : ∀ p ∈ T, p.Prime := fun p hp => prime p (Finset.mem_powerset.mp hT hp)
      have outside : ∏ p ∈ T, p ∉ t := fun inside => other ⟨_, inside, Nat.primeFactors_prod primes⟩
      rw [show c T = 0 from if_neg outside, Rat.cast_zero, zero_mul]
    · intro n hn
      have own : c n.primeFactors = f n := by
        simp only [c, product n hn, if_pos hn]
      rw [own, rootOfProduct, product n hn, Rat.smul_def]
  have own := hK.independent c sum n.primeFactors (subset n hn)
  simpa only [c, product n hn, if_pos hn] using own

end Surd
