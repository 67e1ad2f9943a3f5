import Surd.Proofs.Radical.Ring

/-!
# Powers of radical sums

A power squares its base for each binary digit of the exponent. Up to equality of sums it is the product of as many
factors, multiplied one after the other, and exponents add (`power_agrees_product`).

The two do not meet at any step before the last: what is merged and factored on the way differs. Both keep a real value,
the loop that of the result times the base to what is left of the exponent.
-/

namespace Surd.RadicalSum

variable {s t : RadicalSum}

/-- The product of `n` factors, multiplied one after the other. -/
def repeatedProduct (s : RadicalSum) : ℕ → Except Fault RadicalSum
  | 0 => ofTerms [] 1
  | n + 1 => do (← s.repeatedProduct n).multiply s

theorem Reduced.repeatedProduct_computes (h : s.Reduced) (n : ℕ) :
    Computes (s.repeatedProduct n) (s.toReal ^ n) := by
  induction n with
  | zero =>
      have one := computes_constant 1
      rwa [Int.cast_one, ← pow_zero s.toReal] at one
  | succ n ih =>
      rw [pow_succ]
      exact ih.multiply h.computes

/-- The loop computes the result times the base to what is left of the exponent. -/
theorem Reduced.powerFrom_computes (hs : s.Reduced) (ht : t.Reduced) (n : ℕ) :
    Computes (powerFrom s t n) (s.toReal * t.toReal ^ n) :=
  computes_of_returns (powerFrom_canonical hs.canonical ht.canonical n) (powerFrom_returns hs.denotes ht.denotes n)

theorem reduced_one : (ofConstant 1).Reduced := ⟨canonical_ofConstant 1, denotes_one.integral⟩

theorem Reduced.power_computes (h : s.Reduced) (n : ℕ) : Computes (s.power (.int n)) (s.toReal ^ n) := by
  have loop := reduced_one.powerFrom_computes h n
  rwa [denotes_one.value, one_mul, ← power_eq] at loop

/-- A power of a reduced sum succeeds, and it is equal to the product of as many factors, one after the other from one
on. So the power to a sum of exponents is equal to the product of the powers. -/
theorem power_agrees_product (h : s.Reduced) (m n : ℕ) :
    Agree (s.power (.int n)) (s.repeatedProduct n) ∧
    Agree (s.power (.int (m + n : ℕ))) (do (← s.power (.int m)).multiply (← s.power (.int n))) := by
  constructor
  · exact (h.power_computes n).agree (h.repeatedProduct_computes n) rfl
  · exact (h.power_computes (m + n)).agree ((h.power_computes m).multiply (h.power_computes n)) (pow_add _ m n)

/-- Powers of `1 - √2 + 3√6`: the fifth, whose binary digits are not all ones, and the eighth as a product with the
third. -/
theorem power_agrees_product_surds :
    (ofRoots 1 [(2, -1), (6, 3)]).Reduced ∧
    Agree ((ofRoots 1 [(2, -1), (6, 3)]).power 5) ((ofRoots 1 [(2, -1), (6, 3)]).repeatedProduct 5) ∧
    Agree ((ofRoots 1 [(2, -1), (6, 3)]).power 8) (do
      (← (ofRoots 1 [(2, -1), (6, 3)]).power 3).multiply (← (ofRoots 1 [(2, -1), (6, 3)]).power 5)) := by
  have six : Squarefree 6 := by decide +kernel
  have reduced : (ofRoots 1 [(2, -1), (6, 3)]).Reduced :=
    Roots.reduced ⟨by simp [Nat.prime_two.squarefree, six], by decide⟩ 1
  obtain ⟨product, exponents⟩ := power_agrees_product reduced 3 5
  exact ⟨reduced, product, exponents⟩

end Surd.RadicalSum
