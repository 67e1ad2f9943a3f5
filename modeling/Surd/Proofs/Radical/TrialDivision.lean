import Surd.Radical.FactorList
import Surd.Proofs.Number.Value
import Surd.Proofs.Radical.Squarefree
import Mathlib.Data.Nat.Log
import Mathlib.Data.Nat.Sqrt

/-!
# Trial division, test by test

`trialFactors` is recursive and thereby total. The loops that it stands for test whether two or a candidate divides, and
whether the candidate has passed the root; they are taken here one test at a time, `Trial` being where they stand. As long
as what is left is sifted (`Trial.Valid`), a test finds the next of the factors that are still to come, if any
(`found_append_factors`), and leaves less work (`work_next_lt`). So the loops are over after at most `log₂ n + √n + 1`
tests, and have found all factors then (`exists_run`).
-/

namespace Surd

/-! ## The loops -/

/-- Where trial division stands with what is left of a number: it divides out twos, it asks whether a candidate has passed
the root, it divides out the candidate, or it has ended. -/
inductive Trial where
  | halving (left : Nat)
  | trying (i left : Nat) (hi : 2 ≤ i)
  | dividing (i left : Nat) (hi : 2 ≤ i)
  | ended

namespace Trial

variable {s : Trial} {i n k : Nat}

theorem candidate_three : 2 ≤ 3 := by decide

theorem candidate_add_two (hi : 2 ≤ i) : 2 ≤ i + 2 := by omega

/-- Where trial division stands after one more test. -/
def next : Trial → Trial
  | halving n => if n % 2 = 0 then halving (n / 2) else trying 3 n candidate_three
  | trying i n hi => if i * i ≤ n then dividing i n hi else ended
  | dividing i n hi => if n % i = 0 then dividing i (n / i) hi else trying (i + 2) n (candidate_add_two hi)
  | ended => ended

/-- The factor that a test finds, if any. -/
def found : Trial → List Nat
  | halving n => if n % 2 = 0 then [2] else []
  | trying i n _ => if i * i ≤ n then [] else if 2 < n then [n] else []
  | dividing i n _ => if n % i = 0 then [i] else []
  | ended => []

/-- The factors that `k` tests find, and where trial division stands after them. -/
def run : Nat → Trial → List Nat × Trial
  | 0, s => ([], s)
  | k + 1, s => (s.found ++ (run k s.next).1, (run k s.next).2)

/-- The factors that are still to be found. -/
def factors : Trial → List Nat
  | halving n => List.replicate (twoPart n).1 2 ++ trialFactors 3 (twoPart n).2 candidate_three
  | trying i n hi => trialFactors i n hi
  | dividing i n hi => trialFactors i n hi
  | ended => []

/-- What the loops keep: something is left, and no prime below the candidate divides it. -/
def Valid : Trial → Prop
  | halving n => 0 < n
  | trying i n _ => Sifted i n
  | dividing i n _ => Sifted i n
  | ended => True

/-- How many tests are still to be made at most. -/
def work : Trial → Nat
  | halving n => Nat.log 2 n + n.sqrt + 1
  | trying i n _ => Nat.log 2 n + (n.sqrt + 2 - i) + 1
  | dividing i n _ => Nat.log 2 n + (n.sqrt - i) + 2
  | ended => 0

/-! ## One test -/

theorem Valid.next (h : s.Valid) : s.next.Valid := by
  cases s with
  | halving n =>
      have left : 0 < n := h
      rw [Trial.next]
      split
      · show 0 < n / 2
        omega
      · exact sifted_three (Nat.odd_iff.mpr (by omega))
  | trying i n hi =>
      rw [Trial.next]
      split
      · exact h
      · trivial
  | dividing i n hi =>
      have sifted : Sifted i n := h
      rw [Trial.next]
      split
      · rename_i divides
        exact sifted.of_dvd (Nat.div_dvd_of_dvd (Nat.dvd_of_mod_eq_zero divides))
      · rename_i rest
        exact sifted.add_two rest
  | ended => trivial

theorem trialFactors_of_lt (hi : 2 ≤ i) (passed : ¬i * i ≤ n) :
    trialFactors i n hi = if 2 < n then [n] else [] := by
  rw [trialFactors, dif_neg passed]

/-- A candidate that is divided out is a factor, also behind the root: what it leaves there is one. -/
theorem cons_trialFactors_div (h : Sifted i n) (hi : 2 ≤ i) (divides : n % i = 0) :
    i :: trialFactors i (n / i) hi = trialFactors i n hi := by
  by_cases within : i * i ≤ n
  · conv_rhs => rw [trialFactors, dif_pos within, if_pos divides]
  · have dvd := Nat.dvd_of_mod_eq_zero divides
    have positive := h.odd.pos
    have low : n / i < i := Nat.div_lt_of_lt_mul (not_le.mp within)
    have one : n / i = 1 := by
      by_contra more
      have prime := Nat.minFac_prime more
      have least := h.least _ prime ((Nat.minFac_dvd _).trans (Nat.div_dvd_of_dvd dvd))
      have quotient : 0 < n / i := Nat.div_pos (Nat.le_of_dvd positive dvd) (by omega)
      exact absurd (least.trans (Nat.minFac_le quotient)) low.not_ge
    obtain rfl : i = n := Nat.eq_of_dvd_of_div_eq_one dvd one
    have odd := Nat.odd_iff.mp h.odd
    rw [one, trialFactors_of_lt hi (by nlinarith), trialFactors_of_lt hi within, if_neg (by decide), if_pos (by omega)]

/-- A candidate that does not divide is passed over, also behind the root. -/
theorem trialFactors_add_two (hi : 2 ≤ i) (rest : n % i ≠ 0) :
    trialFactors (i + 2) n (by omega) = trialFactors i n hi := by
  by_cases within : i * i ≤ n
  · conv_rhs => rw [trialFactors, dif_pos within, if_neg rest]
  · rw [trialFactors_of_lt hi within, trialFactors_of_lt _ (by nlinarith)]

/-- What a test finds comes first of the factors that were still to be found. -/
theorem found_append_factors (h : s.Valid) : s.found ++ s.next.factors = s.factors := by
  cases s with
  | halving n =>
      have left : n ≠ 0 := Nat.ne_of_gt h
      rw [found, next, factors, twoPart]
      split
      · rename_i even
        rw [if_pos ⟨left, even⟩]
        rfl
      · rename_i odd
        rw [if_neg fun both => odd both.2]
        rfl
  | trying i n hi =>
      rw [found, next]
      split
      · rfl
      · rename_i passed
        rw [factors, factors, trialFactors_of_lt hi passed, List.append_nil]
  | dividing i n hi =>
      rw [found, next]
      split
      · rename_i divides
        exact cons_trialFactors_div h hi divides
      · rename_i rest
        exact trialFactors_add_two hi rest
  | ended => rfl

/-- A test that divides makes the logarithm smaller, and one that goes on to the next candidate makes the way to the root
shorter. -/
theorem work_next_lt (h : s.Valid) (running : s ≠ ended) : s.next.work < s.work := by
  have divided {n i : Nat} (hn : 0 < n) (hi : 2 ≤ i) (divides : n % i = 0) :
      Nat.log 2 (n / i) < Nat.log 2 n ∧ (n / i).sqrt ≤ n.sqrt := by
    have large : 2 ≤ n := hi.trans (Nat.le_of_dvd hn (Nat.dvd_of_mod_eq_zero divides))
    have halved : Nat.log 2 (n / i) ≤ Nat.log 2 (n / 2) := Nat.log_mono_right (Nat.div_le_div_left hi two_pos)
    rw [Nat.log_div_base] at halved
    have positive := Nat.log_pos one_lt_two large
    exact ⟨by omega, Nat.sqrt_le_sqrt (Nat.div_le_self n i)⟩
  cases s with
  | halving n =>
      have left : 0 < n := h
      rw [next]
      split
      · rename_i even
        obtain ⟨fewer, smaller⟩ := divided left le_rfl even
        simp only [work]
        omega
      · have root : 0 < n.sqrt := Nat.sqrt_pos.mpr left
        simp only [work]
        omega
  | trying i n hi =>
      rw [next]
      split
      · rename_i within
        have root : i ≤ n.sqrt := Nat.le_sqrt.mpr within
        simp only [work]
        omega
      · exact Nat.succ_pos _
  | dividing i n hi =>
      have sifted : Sifted i n := h
      rw [next]
      split
      · rename_i divides
        obtain ⟨fewer, smaller⟩ := divided sifted.odd.pos hi divides
        simp only [work]
        omega
      · simp only [work]
        omega
  | ended => exact absurd rfl running

/-! ## All tests -/

/-- The loops end within the bound and have found all factors. -/
theorem exists_run (h : s.Valid) : ∃ k ≤ s.work, s.run k = (s.factors, ended) := by
  induction hw : s.work using Nat.strongRecOn generalizing s with
  | ind w ih =>
  subst hw
  by_cases running : s = ended
  · subst running
    exact ⟨0, le_rfl, rfl⟩
  · have less := work_next_lt h running
    obtain ⟨k, within, ends⟩ := ih _ less h.next rfl
    refine ⟨k + 1, Nat.succ_le_of_lt (within.trans_lt less), ?_⟩
    rw [run, ends, found_append_factors h]

/-- Two divides zero, and zero is left. -/
theorem run_zero (k : Nat) : (run k (halving 0)).2 = halving 0 := by
  induction k with
  | zero => rfl
  | succ k ih => exact ih

end Trial

end Surd
