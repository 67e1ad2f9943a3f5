import Surd.Proofs.Radical.Factor
import Mathlib.Data.Nat.Squarefree
import Mathlib.RingTheory.Int.Basic

/-!
# Square-free radicands

Trial division finds primes only: what divides first has no divisor below it, and what is left in the end is smaller than
the square of what was tried. A radicand is a product of different primes, so no square divides it. The greatest common
divisor of two square-free numbers leaves square-free numbers, and their product is square-free again.
-/

namespace Surd

/-! ## Primes -/

/-- An odd number that no prime below an odd candidate divides. -/
structure Sifted (i n : Nat) : Prop where
  candidate : Odd i
  odd : Odd n
  least : ∀ p, p.Prime → p ∣ n → i ≤ p

theorem sifted_three {n : Nat} (hn : Odd n) : Sifted 3 n where
  candidate := by decide
  odd := hn
  least p hp hpn := by
    have odd := Nat.odd_iff.mp (hn.of_dvd_nat hpn)
    have two := hp.two_le
    omega

namespace Sifted

variable {i n : Nat}

/-- A candidate that divides is the least divisor. -/
theorem prime_candidate (h : Sifted i n) (hi : 2 ≤ i) (dvd : i ∣ n) : i.Prime := by
  have first := Nat.minFac_prime (Nat.ne_of_gt hi)
  have same : i = i.minFac :=
    Nat.le_antisymm (h.least _ first ((Nat.minFac_dvd i).trans dvd)) (Nat.minFac_le (by omega))
  rwa [← same] at first

theorem of_dvd {m : Nat} (h : Sifted i n) (dvd : m ∣ n) : Sifted i m :=
  ⟨h.candidate, h.odd.of_dvd_nat dvd, fun p hp hpm => h.least p hp (hpm.trans dvd)⟩

/-- A candidate that does not divide is followed by the next odd number. -/
theorem add_two (h : Sifted i n) (hd : n % i ≠ 0) : Sifted (i + 2) n := by
  refine ⟨h.candidate.add_even even_two, h.odd, fun p hp hpn => ?_⟩
  have low := h.least p hp hpn
  have not_tried : p ≠ i := by
    rintro rfl
    exact hd (Nat.mod_eq_zero_of_dvd hpn)
  have odd : p % 2 = 1 := Nat.odd_iff.mp (h.odd.of_dvd_nat hpn)
  have odd' : i % 2 = 1 := Nat.odd_iff.mp h.candidate
  omega

/-- What is smaller than the square of the candidate is prime. -/
theorem prime_of_lt (h : Sifted i n) (hn : 2 < n) (hlt : ¬i * i ≤ n) : n.Prime := by
  by_contra composite
  have small := Nat.minFac_sq_le_self (by omega) composite
  have low := h.least _ (Nat.minFac_prime (by omega)) (Nat.minFac_dvd n)
  exact hlt ((Nat.mul_le_mul low low).trans (by rwa [← pow_two]))

end Sifted

/-- Trial of a sifted number returns primes. -/
theorem trialFactors_prime {i n : Nat} (hi : 2 ≤ i) (h : Sifted i n) : ∀ p ∈ trialFactors i n hi, p.Prime := by
  fun_induction trialFactors i n hi with
  | case1 i n hi _ hd ih =>
      have dvd : i ∣ n := Nat.dvd_of_mod_eq_zero hd
      exact List.forall_mem_cons.mpr ⟨h.prime_candidate hi dvd, ih (h.of_dvd (Nat.div_dvd_of_dvd dvd))⟩
  | case2 i n hi _ hd ih => exact ih (h.add_two hd)
  | case3 i n hi hlt hn => exact List.forall_mem_singleton.mpr (h.prime_of_lt hn hlt)
  | case4 => exact fun p hp => absurd hp List.not_mem_nil

theorem primeFactors_prime {n : Nat} (hn : n ≠ 0) :
    ∀ p ∈ primeFactors n, ∃ q : Nat, q.Prime ∧ p = q := by
  intro p hp
  simp only [primeFactors, Int.natAbs_natCast, List.mem_append, List.mem_replicate] at hp
  rw [if_neg (by omega)] at hp
  obtain ⟨_, rfl⟩ | hp := hp
  · exact ⟨2, Nat.prime_two, rfl⟩
  · obtain ⟨q, hq, rfl⟩ := List.mem_map.mp hp
    exact ⟨q, trialFactors_prime _ (sifted_three (twoPart_odd hn)) q hq, rfl⟩

/-! ## Radicands -/

/-- Of primes that are paired, different ones stay single. -/
theorem squarefree_pairFactors {factors : List Int}
    (prime : ∀ p ∈ factors, ∃ q : Nat, q.Prime ∧ p = q) : Squarefree (pairFactors factors).2 := by
  rw [pairFactors_eq]
  dsimp only
  rw [← List.prod_toFinset _ (nodup_eraseDups factors)]
  have prime' : ∀ p ∈ factors.eraseDups.toFinset, ∃ q : Nat, q.Prime ∧ p = q := fun p hp =>
    prime p (List.mem_eraseDups.mp (List.mem_toFinset.mp hp))
  refine Finset.squarefree_prod_of_pairwise_isCoprime ?_ ?_
  · intro p hp q hq different
    obtain ⟨p, first, rfl⟩ := prime' p hp
    obtain ⟨q, second, rfl⟩ := prime' q hq
    have coprime : p.Coprime q := (Nat.coprime_primes first second).mpr fun h => different (by rw [h])
    exact (Nat.isCoprime_iff_coprime.mpr coprime).pow.isRelPrime
  · intro p hp
    obtain ⟨p, single, rfl⟩ := prime' p hp
    obtain even | odd := Nat.mod_two_eq_zero_or_one (factors.count (p : Int))
    · rw [even, pow_zero]
      exact squarefree_one
    · rw [odd, pow_one]
      exact Int.squarefree_natCast.mpr single.squarefree

/-- The root of a positive number has a square-free radicand. -/
theorem squarefree_rootOfNat {n : Nat} (hn : n ≠ 0) : Squarefree (rootOfNat n).2 := by
  simp only [rootOfNat]
  split
  · exact squarefree_one
  · exact squarefree_pairFactors (primeFactors_prime hn)

/-- What two square-free numbers do not share is square-free. -/
theorem squarefree_div_gcd_mul {m n : Nat} (hm : Squarefree m) (hn : Squarefree n) :
    Squarefree (m / m.gcd n * (n / m.gcd n)) := by
  have coprime := Nat.coprime_div_gcd_div_gcd (Nat.gcd_pos_of_pos_left n hm.ne_zero.bot_lt)
  refine (Nat.squarefree_mul coprime).mpr ⟨?_, ?_⟩
  · exact hm.squarefree_of_dvd (Nat.div_dvd_of_dvd (Nat.gcd_dvd_left m n))
  · exact hn.squarefree_of_dvd (Nat.div_dvd_of_dvd (Nat.gcd_dvd_right m n))

end Surd
