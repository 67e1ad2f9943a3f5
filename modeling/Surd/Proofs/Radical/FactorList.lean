import Surd.Proofs.Returns
import Surd.Proofs.Radical.TrialDivision

/-!
# Factor lists of whole numbers

Trial division ends, and the factors that it has found are primes in growing order with the number as their product.
Pairing takes the square root of any product of factors: the square of the coefficient times the radicand is the product,
and of primes no square is left in the radicand (`factorisation_complete`). Lists of numbers in which no double stands are
factored and paired in the same way.
-/

namespace Surd

variable {factors distinct : List Int} {f : Int} {n : Nat}

/-! ## Prime factors -/

theorem trialFactors_ascending {i n : Nat} (hi : 2 ≤ i) (h : Sifted i n) : (trialFactors i n hi).Pairwise (· ≤ ·) := by
  fun_induction trialFactors i n hi with
  | case1 i n hi _ hd ih =>
      have dvd : n / i ∣ n := Nat.div_dvd_of_dvd (Nat.dvd_of_mod_eq_zero hd)
      have rest := h.of_dvd dvd
      refine List.pairwise_cons.mpr ⟨fun p hp => ?_, ih rest⟩
      have divides : p ∣ n / i := trialFactors_prod hi rest.odd ▸ List.dvd_prod hp
      exact rest.least p (trialFactors_prime hi rest p hp) divides
  | case2 i n hi _ hd ih => exact ih (h.add_two hd)
  | case3 i n => exact List.pairwise_singleton _ n
  | case4 => exact .nil

/-- The factors are primes in growing order, and they multiply to the number. -/
structure Factorises (n : Int) (ps : List Nat) : Prop where
  ascending : ps.Pairwise (· ≤ ·)
  prime : ∀ p ∈ ps, p.Prime
  prod : (ps.prod : Int) = n

theorem factorises_halving (hn : 0 < n) : Factorises n (Trial.halving n).factors := by
  have odd := twoPart_odd hn.ne'
  have sifted := sifted_three odd
  have prime : ∀ p ∈ trialFactors 3 (twoPart n).2 (by decide), p.Prime := trialFactors_prime _ sifted
  refine ⟨?_, ?_, ?_⟩
  · refine List.pairwise_append.mpr ⟨List.pairwise_replicate.mpr (.inr le_rfl), trialFactors_ascending _ sifted, ?_⟩
    intro two h p hp
    rw [List.eq_of_mem_replicate h]
    exact (prime p hp).two_le
  · refine List.forall_mem_append.mpr ⟨fun p hp => ?_, prime⟩
    rw [List.eq_of_mem_replicate hp]
    exact Nat.prime_two
  · rw [Trial.factors, List.prod_append, List.prod_replicate, trialFactors_prod _ odd, twoPart_mul]

theorem primeFactors_natCast (n : Nat) : primeFactors n = (Trial.halving n).factors.map Int.ofNat := by
  simp only [primeFactors, Int.natAbs_natCast, Trial.factors, List.map_append, List.map_replicate]
  rw [if_neg (by omega)]
  rfl

/-! ## Pairs -/

/-- A factor is counted where it stands already, and else it comes last. -/
theorem count_int (nodup : distinct.Nodup) (k : Int → Nat) (f : Int) :
    tally.count (distinct.map fun g => (.int g, k g)) (.int f) =
      (distinct.map fun g => (.int g, k g + if f = g then 1 else 0)) ++
        if f ∈ distinct then [] else [(.int f, 1)] := by
  induction distinct with
  | nil => rfl
  | cons g rest ih =>
      obtain ⟨first, others⟩ := List.nodup_cons.mp nodup
      rw [List.map_cons, tally.count, Number.equal_int]
      by_cases same : g = f
      · subst same
        have unchanged : rest.map (fun h => (Number.int h, k h + if g = h then 1 else 0)) =
            rest.map fun h => (.int h, k h) := by
          refine List.map_congr_left fun h hh => ?_
          have other : g ≠ h := (ne_of_mem_of_not_mem hh first).symm
          rw [if_neg other, add_zero]
        simp [unchanged]
      · simp [ih others, same, Ne.symm same]

/-- Tallying whole numbers counts the distinct ones. -/
theorem tally_int (factors : List Int) :
    tally (factors.map .int) = factors.eraseDups.map fun f => (.int f, factors.count f) := by
  induction factors using List.reverseRecOn with
  | nil => rfl
  | append_singleton factors f ih =>
      have one : tally ((factors ++ [f]).map .int) = tally.count (tally (factors.map .int)) (.int f) := by
        simp [tally]
      have counted : ∀ g, (factors ++ [f]).count g = factors.count g + if f = g then 1 else 0 := by
        intro g
        rw [List.count_append, List.count_singleton']
      rw [one, ih, count_int (nodup_eraseDups factors), eraseDups_concat]
      simp only [counted, List.mem_eraseDups]
      by_cases there : f ∈ factors
      · simp [there]
      · simp [there, List.count_eq_zero_of_not_mem]

/-- Pairing numbers that are whole is pairing whole numbers. -/
theorem pairNumbers_int (lib : Elementary) (factors : List Int) :
    pairNumbers lib (factors.map .int) = .ok (.int (pairFactors factors).1, .int (pairFactors factors).2) := by
  rw [pairNumbers, tally_int]
  refine foldlM_map_ok (e := fun acc : Int × Int => (Number.int acc.1, Number.int acc.2)) (fun acc f => ?_) _ (1, 1)
  dsimp only [factorPower]
  rw [ok_bind, Number.mul_int, ok_bind]
  split
  · rw [Number.mul_int]
    rfl
  · rfl

/-- **Factor lists.** Trial division of a positive number is over after at most `log₂ n + √n + 1` tests, having found the
prime factors in growing order; of zero it is never over. A product of whole numbers is the square of the coefficient times
the radicand that its factors are paired to, and the radicand is square-free if they are primes. -/
theorem factorisation_complete :
    (∀ n : Int, 1 ≤ n → ∃ ps : List Nat, Factorises n ps ∧
      primeFactors n = ps.map Int.ofNat ∧ (Number.int n).primeFactors = ps.map (.int ∘ Int.ofNat) ∧
      ∃ k ≤ Nat.log 2 n.toNat + n.toNat.sqrt + 1, (Trial.halving n.toNat).run k = (ps, .ended)) ∧
    (∀ k, ((Trial.halving 0).run k).2 ≠ .ended) ∧
    ∀ factors : List Int, ∃ c r : Int,
      pairFactors factors = (c, r) ∧ (∀ lib, pairNumbers lib (factors.map .int) = .ok (.int c, .int r)) ∧
      c ^ 2 * r = factors.prod ∧ ((∀ f ∈ factors, ∃ q : Nat, q.Prime ∧ f = q) → Squarefree r) := by
  refine ⟨fun n hn => ?_, fun k ends => ?_, fun factors => ?_⟩
  · obtain ⟨m, rfl⟩ := Int.eq_ofNat_of_zero_le (zero_le_one.trans hn)
    have valid : (Trial.halving m).Valid := Int.natCast_pos.mp hn
    refine ⟨_, factorises_halving valid, primeFactors_natCast m, ?_, Trial.exists_run valid⟩
    rw [Number.primeFactors, primeFactors_natCast, List.map_map]
  · cases (Trial.run_zero k).symm.trans ends
  · exact ⟨_, _, rfl, fun lib => pairNumbers_int lib factors, pairFactors_mul factors, squarefree_pairFactors⟩

/-- Of 360, which is 2³·3²·5, the factors are found in 27 tests at most, and its root is six times that of ten. -/
theorem factorisation_complete_360 :
    (1 : Int) ≤ 360 ∧ Factorises 360 [2, 2, 2, 3, 3, 5] ∧
    (∃ k ≤ 27, (Trial.halving 360).run k = ([2, 2, 2, 3, 3, 5], .ended)) ∧
    (∀ lib, pairNumbers lib [2, 2, 2, 3, 3, 5] = .ok (6, 10)) ∧ Squarefree (10 : Int) := by
  obtain ⟨factored, _, paired⟩ := factorisation_complete
  obtain ⟨ps, complete, same, _, k, within, ends⟩ := factored 360 (by decide)
  have written : primeFactors 360 = [2, 2, 2, 3, 3, 5].map Int.ofNat := by
    simp [primeFactors, twoPart, trialFactors]
  obtain rfl := List.map_injective_iff.mpr (fun _ _ => Int.ofNat.inj) (same.symm.trans written)
  have bound : Nat.log 2 360 + Nat.sqrt 360 + 1 = 27 := by decide +kernel
  obtain ⟨c, r, parts, numbers, _, free⟩ := paired ([2, 2, 2, 3, 3, 5].map Int.ofNat)
  have pairs : pairFactors ([2, 2, 2, 3, 3, 5].map Int.ofNat) = (6, 10) := by decide
  obtain ⟨rfl, rfl⟩ := Prod.mk.inj (pairs.symm.trans parts)
  have prime : ∀ f ∈ [2, 2, 2, 3, 3, 5].map Int.ofNat, ∃ q : Nat, q.Prime ∧ f = q :=
    List.forall_mem_map.mpr fun p hp => ⟨p, complete.prime p hp, rfl⟩
  exact ⟨by decide, complete, ⟨k, within.trans_eq bound, ends⟩, numbers, free prime⟩

end Surd
