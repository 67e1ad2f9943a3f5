import Surd.Radical.Factor
import Mathlib.Algebra.BigOperators.Ring.Finset
import Mathlib.Algebra.Order.BigOperators.GroupWithZero.List
import Mathlib.Algebra.Order.Ring.Int
import Mathlib.Tactic.Ring

/-!
# What factoring preserves

Dividing out factors and pairing them loses nothing: the factors of a positive number multiply to it, and the square
of the coefficient times the radicand is the product of the factors that were paired. So a square root is the
coefficient times the root of the radicand, exactly.
-/

namespace Surd

/-! ## Factors -/

theorem twoPart_mul (n : Nat) : 2 ^ (twoPart n).1 * (twoPart n).2 = n := by
  fun_induction twoPart n with
  | case1 n h r ih =>
      calc 2 ^ (r.1 + 1) * r.2 = 2 * (2 ^ r.1 * r.2) := by ring
        _ = 2 * (n / 2) := by rw [ih]
        _ = n := by omega
  | case2 n h => simp

theorem twoPart_odd {n : Nat} (hn : n ≠ 0) : Odd (twoPart n).2 := by
  fun_induction twoPart n with
  | case1 n h r ih => exact ih (by omega)
  | case2 n h => exact Nat.odd_iff.mpr (by omega)

/-- Trial division of an odd number returns factors of it; what is left at the end is one or a factor itself. -/
theorem trialFactors_prod {i n : Nat} (hi : 2 ≤ i) (hn : Odd n) : (trialFactors i n hi).prod = n := by
  fun_induction trialFactors i n hi with
  | case1 i n hi h hd ih =>
      have hmul : i * (n / i) = n := Nat.mul_div_cancel' (Nat.dvd_of_mod_eq_zero hd)
      have hodd : Odd (n / i) := Nat.Odd.of_mul_right (hmul.symm ▸ hn)
      rw [List.prod_cons, ih hodd, hmul]
  | case2 i n hi h hd ih => exact ih hn
  | case3 i n hi h hlt => exact List.prod_singleton
  | case4 i n hi h hle =>
      obtain ⟨k, rfl⟩ := hn
      simp only [List.prod_nil]
      omega

theorem trialFactors_pos {i n : Nat} (hi : 2 ≤ i) : ∀ p ∈ trialFactors i n hi, 0 < p := by
  fun_induction trialFactors i n hi with
  | case1 i n hi h hd ih =>
      intro p hp
      obtain rfl | hp := List.mem_cons.mp hp
      · omega
      · exact ih p hp
  | case2 i n hi h hd ih => exact ih
  | case3 i n hi h hlt =>
      intro p hp
      rw [List.mem_singleton.mp hp]
      omega
  | case4 => exact fun p hp => absurd hp List.not_mem_nil

theorem primeFactors_prod {n : Nat} (hn : n ≠ 0) : (primeFactors n).prod = n := by
  have hcast : ((trialFactors 3 (twoPart n).2 (by decide)).map Int.ofNat).prod =
      ((trialFactors 3 (twoPart n).2 (by decide)).prod : Nat) :=
    (Nat.cast_list_prod _).symm
  simp only [primeFactors, Int.natAbs_natCast, List.prod_append, List.prod_replicate]
  rw [if_neg (by omega), hcast, trialFactors_prod _ (twoPart_odd hn)]
  exact_mod_cast twoPart_mul n

theorem primeFactors_pos (n : Nat) : ∀ p ∈ primeFactors n, 0 < p := by
  intro p hp
  simp only [primeFactors, Int.natAbs_natCast, List.mem_append, List.mem_replicate] at hp
  rw [if_neg (by omega)] at hp
  obtain ⟨_, rfl⟩ | hp := hp
  · decide
  · obtain ⟨q, hq, rfl⟩ := List.mem_map.mp hp
    exact Int.ofNat_lt.mpr (trialFactors_pos _ q hq)

/-! ## Pairs -/

/-- Pairing goes through the distinct factors: each gives half of its occurrences to the coefficient and the odd one,
if there is one, to the radicand. -/
theorem pairFactors_eq (factors : List Int) :
    pairFactors factors =
      ((factors.eraseDups.map fun f => f ^ (factors.count f / 2)).prod,
        (factors.eraseDups.map fun f => f ^ (factors.count f % 2)).prod) := by
  suffices h : ∀ (distinct : List Int) (acc : Int × Int),
      distinct.foldl (fun acc f =>
        (acc.1 * f ^ (factors.count f / 2),
          if factors.count f % 2 = 1 then acc.2 * f else acc.2)) acc =
        (acc.1 * (distinct.map fun f => f ^ (factors.count f / 2)).prod,
          acc.2 * (distinct.map fun f => f ^ (factors.count f % 2)).prod) by
    have start := h factors.eraseDups (1, 1)
    rw [one_mul, one_mul] at start
    exact start
  intro distinct
  induction distinct with
  | nil => exact fun acc => by simp
  | cons f distinct ih =>
      intro acc
      rw [List.foldl_cons, ih, List.map_cons, List.prod_cons, List.map_cons, List.prod_cons]
      obtain even | odd := Nat.mod_two_eq_zero_or_one (factors.count f)
      · simp [even, mul_assoc]
      · simp [odd, mul_assoc]

theorem nodup_eraseDups {α : Type} [DecidableEq α] : ∀ xs : List α, xs.eraseDups.Nodup
  | [] => List.nodup_nil
  | x :: rest => by
    rw [List.eraseDups_cons, List.nodup_cons]
    refine ⟨fun h => ?_, nodup_eraseDups _⟩
    have kept := (List.mem_filter.mp (List.mem_eraseDups.mp h)).2
    simp at kept
termination_by xs => xs.length
decreasing_by exact Nat.lt_succ_of_le (List.length_filter_le _ _)

theorem eraseDups_concat {α : Type} [DecidableEq α] (xs : List α) (x : α) :
    (xs ++ [x]).eraseDups = if x ∈ xs then xs.eraseDups else xs.eraseDups ++ [x] := by
  rw [List.eraseDups_append]
  by_cases there : x ∈ xs <;> simp [List.removeAll, List.eraseDups_cons, there]

/-- A product is the product of its distinct factors to the powers of their counts. -/
theorem prod_eraseDups (factors : List Int) :
    (factors.eraseDups.map fun f => f ^ factors.count f).prod = factors.prod := by
  have same : factors.eraseDups.toFinset = factors.toFinset := by
    ext f
    rw [List.mem_toFinset, List.mem_toFinset, List.mem_eraseDups]
  rw [Finset.prod_list_count factors, ← same, List.prod_toFinset _ (nodup_eraseDups factors)]

theorem pairFactors_mul (factors : List Int) :
    (pairFactors factors).1 ^ 2 * (pairFactors factors).2 = factors.prod := by
  simp only [pairFactors_eq]
  rw [← prod_eraseDups factors, pow_two, ← List.prod_map_mul, ← List.prod_map_mul]
  refine congrArg List.prod (List.map_congr_left fun f _ => ?_)
  rw [← pow_two, ← pow_mul, ← pow_add, Nat.div_add_mod']

theorem pairFactors_pos {factors : List Int} (h : ∀ f ∈ factors, 0 < f) :
    0 < (pairFactors factors).1 ∧ 0 < (pairFactors factors).2 := by
  have positive : ∀ (exponent : Int → Nat),
      0 < (factors.eraseDups.map fun f => f ^ exponent f).prod := by
    intro exponent
    refine List.prod_pos fun x hx => ?_
    obtain ⟨f, hf, rfl⟩ := List.mem_map.mp hx
    exact pow_pos (h f (List.mem_eraseDups.mp hf)) _
  rw [pairFactors_eq]
  exact ⟨positive _, positive _⟩

/-! ## Roots -/

/-- The root of a positive number is written exactly: as a positive coefficient and a positive radicand whose
product, the coefficient squared, is the number. -/
theorem rootOfNat_spec {n : Nat} (hn : n ≠ 0) :
    0 < (rootOfNat n).1 ∧ 0 < (rootOfNat n).2 ∧ (rootOfNat n).1 ^ 2 * (rootOfNat n).2 = n := by
  simp only [rootOfNat]
  split
  · rename_i square
    have hroot : 0 < floorSqrt n := by
      refine Nat.pos_of_ne_zero fun hz => hn ?_
      rw [← square, hz]
    refine ⟨Int.natCast_pos.mpr hroot, one_pos, ?_⟩
    rw [mul_one, pow_two]
    exact congrArg Nat.cast square
  · obtain ⟨hc, hr⟩ := pairFactors_pos (primeFactors_pos n)
    exact ⟨hc, hr, (pairFactors_mul _).trans (primeFactors_prod hn)⟩

end Surd
