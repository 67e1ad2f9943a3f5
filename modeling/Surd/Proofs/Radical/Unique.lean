import Surd.Proofs.Radical.Canonical
import Surd.Proofs.Radical.Independence
import Mathlib.Data.List.Perm.Basic
import Mathlib.Data.List.Sort
import Mathlib.Data.Set.List

/-!
# Uniqueness of canonical sums

A reduced sum is canonical with whole numbers throughout; it is a whole number plus whole multiples of the roots of
distinct square-free numbers. These roots are independent over the rationals, so the real value of a reduced sum
determines its constant and its terms up to their order: equality of sums is equality of values, and only a sum without
terms is rational. The exact operations lead from reduced sums to reduced sums.
-/

namespace Surd.RadicalSum

/-- In canonical form and over the whole numbers. -/
structure Reduced (s : RadicalSum) : Prop where
  canonical : s.Canonical
  integral : s.Integral

/-- A whole constant and whole multiples, none of them zero, of the roots of whole numbers above one. -/
structure Whole (s : RadicalSum) : Prop where
  constant : ∃ k : ℤ, s.constant = .int k
  term : ∀ t ∈ s.terms, ∃ c r : ℤ, t = ⟨.int c, .int r⟩ ∧ c ≠ 0 ∧ 2 ≤ r

/-! ## Roots with multiples -/

/-- A root with its multiple, as a term. -/
def rootTerm (p : ℕ × ℤ) : Term := ⟨.int p.2, .int p.1⟩

/-- A whole number plus multiples of roots. -/
def ofRoots (k : ℤ) (ps : List (ℕ × ℤ)) : RadicalSum := ⟨ps.map rootTerm, .int k⟩

theorem map_radicand_rootTerm (ps : List (ℕ × ℤ)) :
    (ps.map rootTerm).map Term.radicand = (ps.map Prod.fst).map fun r => .int r := by
  rw [List.map_map, List.map_map]
  rfl

/-- Multiples, none of them zero, of the roots of distinct square-free numbers above one. -/
structure Roots (ps : List (ℕ × ℤ)) : Prop where
  each : ∀ p ∈ ps, 2 ≤ p.1 ∧ Squarefree p.1 ∧ p.2 ≠ 0
  distinct : (ps.map Prod.fst).Nodup

variable {s a b : RadicalSum} {k l : ℤ} {ps qs : List (ℕ × ℤ)}

theorem Whole.exists_roots (h : s.Whole) : ∃ k ps, (∀ p ∈ ps, 2 ≤ p.1 ∧ p.2 ≠ 0) ∧ s = ofRoots k ps := by
  obtain ⟨⟨k, hk⟩, term⟩ := h
  obtain ⟨terms, _⟩ := s
  obtain rfl := hk
  have roots : terms ∈ Set.range (List.map rootTerm) := by
    rw [Set.range_list_map]
    intro t ht
    obtain ⟨c, r, rfl, _, large⟩ := term t ht
    exact ⟨(r.toNat, c), congrArg (Term.mk (.int c)) (congrArg Number.int (Int.toNat_of_nonneg (by omega)))⟩
  obtain ⟨ps, rfl⟩ := roots
  refine ⟨k, ps, fun p hp => ?_, rfl⟩
  obtain ⟨c, r, same, nonzero, large⟩ := term _ (List.mem_map_of_mem hp)
  obtain rfl : p.2 = c := Number.int.inj (congrArg Term.coefficient same)
  obtain rfl : (p.1 : ℤ) = r := Number.int.inj (congrArg Term.radicand same)
  exact ⟨by omega, nonzero⟩

theorem whole_ofRoots (each : ∀ p ∈ ps, 2 ≤ p.1 ∧ p.2 ≠ 0) (k : ℤ) : (ofRoots k ps).Whole := by
  refine ⟨⟨k, rfl⟩, fun t ht => ?_⟩
  obtain ⟨p, hp, rfl⟩ := List.mem_map.mp ht
  exact ⟨p.2, p.1, rfl, (each p hp).2, by exact_mod_cast (each p hp).1⟩

theorem Reduced.whole (h : s.Reduced) : s.Whole := by
  refine ⟨h.integral.constant, fun t ht => ?_⟩
  obtain ⟨c, _, _, rfl⟩ := h.integral.terms t ht
  obtain ⟨r, large, _, hr⟩ := h.canonical.radicands.squarefree _ (List.mem_map_of_mem ht)
  obtain rfl := Number.int.inj hr
  have nonzero := h.canonical.coefficient _ ht
  rw [Number.isZero_int, decide_eq_false_iff_not] at nonzero
  exact ⟨c, r, rfl, nonzero, by omega⟩

theorem Reduced.exists_roots (h : s.Reduced) : ∃ k ps, Roots ps ∧ s = ofRoots k ps := by
  obtain ⟨k, ps, each, rfl⟩ := h.whole.exists_roots
  refine ⟨k, ps, ⟨fun p hp => ?_, ?_⟩, rfl⟩
  · obtain ⟨r, _, free, hr⟩ := h.canonical.radicands.squarefree _ (List.mem_map_of_mem (List.mem_map_of_mem hp))
    obtain rfl : p.1 = r := Int.ofNat.inj (Number.int.inj hr)
    exact ⟨(each p hp).1, free, (each p hp).2⟩
  · have distinct := h.canonical.radicands.distinct
    rw [ofRoots, map_radicand_rootTerm] at distinct
    exact distinct.of_map _

theorem toReal_ofRoots (k : ℤ) (ps : List (ℕ × ℤ)) :
    (ofRoots k ps).toReal = k + (ps.map fun p => (p.2 : ℝ) * √(p.1 : ℝ)).sum := by
  rw [toReal, ofRoots, List.map_map]
  rfl

/-! ## Coefficients -/

/-- The coefficients of the roots of all natural numbers in a sum, that of one being the constant. -/
noncomputable def coefficients (k : ℤ) (ps : List (ℕ × ℤ)) : ℕ →₀ ℚ :=
  .single 1 (k : ℚ) + (ps.map fun p => Finsupp.single p.1 (p.2 : ℚ)).sum

theorem linearCombination_coefficients (k : ℤ) (ps : List (ℕ × ℤ)) :
    Finsupp.linearCombination ℚ (fun n : ℕ => √(n : ℝ)) (coefficients k ps) = (ofRoots k ps).toReal := by
  have single : ∀ (n : ℕ) (c : ℤ),
      Finsupp.linearCombination ℚ (fun n : ℕ => √(n : ℝ)) (.single n (c : ℚ)) = c * √(n : ℝ) := by
    intro n c
    rw [Finsupp.linearCombination_single, Rat.smul_def, Rat.cast_intCast]
  rw [coefficients, map_add, map_list_sum, List.map_map, single, Nat.cast_one, Real.sqrt_one, mul_one, toReal_ofRoots]
  congr 2
  exact List.map_congr_left fun p _ => single p.1 p.2

theorem coefficients_mem_supported (h : Roots ps) (k : ℤ) :
    coefficients k ps ∈ Finsupp.supported ℚ ℚ {n : ℕ | Squarefree n} := by
  refine add_mem (Finsupp.single_mem_supported ℚ _ squarefree_one) (list_sum_mem fun f hf => ?_)
  obtain ⟨p, hp, rfl⟩ := List.mem_map.mp hf
  exact Finsupp.single_mem_supported ℚ _ (h.each p hp).2.1

/-- What the roots contribute where no root is. -/
theorem sum_single_of_not_mem {n : ℕ} (hn : n ∉ ps.map Prod.fst) :
    (ps.map fun p => Finsupp.single p.1 (p.2 : ℚ)).sum n = 0 := by
  induction ps with
  | nil => rfl
  | cons p ps ih =>
      rw [List.map_cons, List.mem_cons, not_or] at hn
      rw [List.map_cons, List.sum_cons, Finsupp.add_apply, Finsupp.single_eq_of_ne hn.1, ih hn.2, add_zero]

theorem sum_single_of_mem (distinct : (ps.map Prod.fst).Nodup) {p : ℕ × ℤ} (hp : p ∈ ps) :
    (ps.map fun p => Finsupp.single p.1 (p.2 : ℚ)).sum p.1 = p.2 := by
  induction ps with
  | nil => cases hp
  | cons q ps ih =>
      rw [List.map_cons, List.nodup_cons] at distinct
      rw [List.map_cons, List.sum_cons, Finsupp.add_apply]
      obtain rfl | hp := List.mem_cons.mp hp
      · rw [Finsupp.single_eq_same, sum_single_of_not_mem distinct.1, add_zero]
      · have other : p.1 ≠ q.1 := fun same => distinct.1 (same ▸ List.mem_map_of_mem hp)
        rw [Finsupp.single_eq_of_ne other, zero_add, ih distinct.2 hp]

theorem Roots.one_not_mem (h : Roots ps) : 1 ∉ ps.map Prod.fst := by
  intro one
  obtain ⟨p, hp, hp1⟩ := List.mem_map.mp one
  have large := (h.each p hp).1
  omega

theorem coefficients_one (h : Roots ps) (k : ℤ) : coefficients k ps 1 = k := by
  rw [coefficients, Finsupp.add_apply, Finsupp.single_eq_same, sum_single_of_not_mem h.one_not_mem, add_zero]

theorem coefficients_of_two_le {n : ℕ} (hn : 2 ≤ n) (k : ℤ) :
    coefficients k ps n = (ps.map fun p => Finsupp.single p.1 (p.2 : ℚ)).sum n := by
  rw [coefficients, Finsupp.add_apply, Finsupp.single_eq_of_ne (by omega), zero_add]

/-- A root that is in one of two sums with the same coefficients is in the other, with the same multiple. -/
theorem mem_of_coefficients_eq (hp : Roots ps) (hq : Roots qs) (same : coefficients k ps = coefficients l qs) :
    ∀ p ∈ ps, p ∈ qs := by
  intro p hmem
  obtain ⟨large, _, nonzero⟩ := hp.each p hmem
  have value : (qs.map fun p => Finsupp.single p.1 (p.2 : ℚ)).sum p.1 = p.2 := by
    rw [← coefficients_of_two_le large l, ← same, coefficients_of_two_le large k,
      sum_single_of_mem hp.distinct hmem]
  have present : p.1 ∈ qs.map Prod.fst := by
    by_contra absent
    rw [sum_single_of_not_mem absent] at value
    exact nonzero (by exact_mod_cast value.symm)
  obtain ⟨q, hq', root⟩ := List.mem_map.mp present
  rw [← root, sum_single_of_mem hq.distinct hq', Int.cast_inj] at value
  rwa [← Prod.ext root value]

/-- The value of a sum determines its constant and its terms up to their order. -/
theorem perm_of_toReal_eq (hp : Roots ps) (hq : Roots qs)
    (h : (ofRoots k ps).toReal = (ofRoots l qs).toReal) : k = l ∧ ps.Perm qs := by
  rw [← linearCombination_coefficients, ← linearCombination_coefficients] at h
  have same := linearIndepOn_iffₛ.mp linearIndepOn_sqrt _ (coefficients_mem_supported hp k) _
    (coefficients_mem_supported hq l) h
  constructor
  · have one := DFunLike.congr_fun same 1
    rw [coefficients_one hp, coefficients_one hq] at one
    exact_mod_cast one
  · refine (List.perm_ext_iff_of_nodup (hp.distinct.of_map _) (hq.distinct.of_map _)).mpr fun p => ?_
    exact ⟨mem_of_coefficients_eq hp hq same p, mem_of_coefficients_eq hq hp same.symm p⟩

/-! ## Equality -/

theorem equal_rootTerm (p q : ℕ × ℤ) : (rootTerm p).equal (rootTerm q) = true ↔ p = q := by
  rw [Term.equal, rootTerm, rootTerm, Number.equal_int, Number.equal_int, Bool.and_eq_true, decide_eq_true_eq,
    decide_eq_true_eq, Int.natCast_inj, Prod.ext_iff, and_comm]

theorem equalTerms_rootTerm : equalTerms (ps.map rootTerm) (qs.map rootTerm) = true ↔ ps = qs := by
  induction ps generalizing qs with
  | nil => cases qs <;> simp [equalTerms]
  | cons p ps ih =>
      cases qs with
      | nil => simp [equalTerms]
      | cons q qs =>
          rw [List.map_cons, List.map_cons, equalTerms, Bool.and_eq_true, equal_rootTerm, ih, List.cons.injEq]

/-- The terms are sorted by their roots. -/
theorem sortedTerms_ofRoots (k : ℤ) (ps : List (ℕ × ℤ)) :
    (ofRoots k ps).sortedTerms = (ps.mergeSort fun p q => decide (p.1 ≤ q.1)).map rootTerm := by
  refine (List.map_mergeSort fun p _ q _ => ?_).symm
  rw [rootTerm, rootTerm, Number.lt_int, ← decide_not, decide_eq_decide, not_lt, Int.ofNat_le]

theorem mergeSort_eq_iff (hp : Roots ps) :
    (ps.mergeSort fun p q => decide (p.1 ≤ q.1)) = (qs.mergeSort fun p q => decide (p.1 ≤ q.1)) ↔ ps.Perm qs := by
  constructor
  · intro same
    have first := List.mergeSort_perm ps fun p q => decide (p.1 ≤ q.1)
    have second := List.mergeSort_perm qs fun p q => decide (p.1 ≤ q.1)
    exact first.symm.trans ((List.Perm.of_eq same).trans second)
  · intro perm
    have sorted : ∀ rs : List (ℕ × ℤ), (rs.mergeSort fun p q => decide (p.1 ≤ q.1)).Pairwise
        fun p q => decide (p.1 ≤ q.1) = true := by
      intro rs
      apply List.pairwise_mergeSort
      · intro p q r hpq hqr
        rw [decide_eq_true_eq] at hpq hqr ⊢
        exact hpq.trans hqr
      · intro p q
        rw [Bool.or_eq_true, decide_eq_true_eq, decide_eq_true_eq]
        exact le_total p.1 q.1
    refine List.Perm.eq_of_pairwise ?_ (sorted ps) (sorted qs)
      ((List.mergeSort_perm _ _).trans (perm.trans (List.mergeSort_perm _ _).symm))
    intro p q hmem hmem' hpq hqp
    have root : p.1 = q.1 := le_antisymm (of_decide_eq_true hpq) (of_decide_eq_true hqp)
    exact List.inj_on_of_nodup_map hp.distinct (List.mem_mergeSort.mp hmem)
      (perm.mem_iff.mpr (List.mem_mergeSort.mp hmem')) root

theorem equal_ofRoots (hp : Roots ps) :
    (ofRoots k ps).equal (ofRoots l qs) = true ↔ k = l ∧ ps.Perm qs := by
  rw [equal, sortedTerms_ofRoots, sortedTerms_ofRoots, Bool.and_eq_true, equalTerms_rootTerm, mergeSort_eq_iff hp]
  exact and_congr_left' (by rw [ofRoots, ofRoots, Number.equal_int, decide_eq_true_eq])

/-- Reduced sums are equal if and only if their real values are. -/
theorem Reduced.equal_iff (ha : a.Reduced) (hb : b.Reduced) : a.equal b = true ↔ a.toReal = b.toReal := by
  obtain ⟨k, ps, hp, rfl⟩ := ha.exists_roots
  obtain ⟨l, qs, hq, rfl⟩ := hb.exists_roots
  rw [equal_ofRoots hp]
  constructor
  · rintro ⟨rfl, perm⟩
    rw [toReal_ofRoots, toReal_ofRoots, (perm.map _).sum_eq]
  · exact perm_of_toReal_eq hp hq

/-! ## Rational values -/

/-- A reduced sum with a rational value has no terms. -/
theorem Reduced.hasRadicals_iff (h : s.Reduced) : s.hasRadicals = false ↔ ∃ q : ℚ, s.toReal = q := by
  obtain ⟨k, ps, hp, rfl⟩ := h.exists_roots
  constructor
  · intro none
    have empty : ps = [] := by simpa [hasRadicals, ofRoots] using none
    exact ⟨k, by rw [empty, toReal_ofRoots, List.map_nil, List.sum_nil, add_zero, Rat.cast_intCast]⟩
  · rintro ⟨q, hq⟩
    have rational : Finsupp.linearCombination ℚ (fun n : ℕ => √(n : ℝ)) (.single 1 q) = (ofRoots k ps).toReal := by
      rw [Finsupp.linearCombination_single, Nat.cast_one, Real.sqrt_one, Rat.smul_one_eq_cast, hq]
    have same := linearIndepOn_iffₛ.mp linearIndepOn_sqrt _ (coefficients_mem_supported hp k) _
      (Finsupp.single_mem_supported ℚ q squarefree_one)
      ((linearCombination_coefficients k ps).trans rational.symm)
    cases ps with
    | nil => rfl
    | cons p ps =>
        obtain ⟨large, _, nonzero⟩ := hp.each p List.mem_cons_self
        have zero := DFunLike.congr_fun same p.1
        rw [coefficients_of_two_le large, sum_single_of_mem hp.distinct List.mem_cons_self,
          Finsupp.single_eq_of_ne (by omega)] at zero
        exact absurd (by exact_mod_cast zero) nonzero

/-! ## Exact operations -/

/-- A sum over the whole numbers that is canonical unless it fails. -/
theorem returns_reduced {e : Except Fault RadicalSum} {x : ℝ} (exact : Returns e (Denotes · x))
    (canonical : ReturnsUnless .integerTooLarge e Canonical) :
    Returns e fun s => s.Reduced ∧ (s.hasRadicals = false ↔ ∃ q : ℚ, s.toReal = q) := by
  apply (canonical.and exact).mono
  rintro s ⟨hs, denotes⟩
  have reduced : s.Reduced := ⟨hs, denotes.integral⟩
  exact ⟨reduced, reduced.hasRadicals_iff⟩

/-- Reduced sums are equal if and only if their real values are, and a reduced sum has no terms if and only if its
value is rational. The normal form of whole multiples of square-free roots and the exact operations on reduced sums
succeed with reduced sums. -/
theorem reduced_unique {terms : List Term} (ha : a.Reduced) (hb : b.Reduced)
    (hterms : ∀ t ∈ terms, t.Integral ∧ t.SquareFree) (k : ℤ) (n : ℕ) :
    (a.equal b = true ↔ a.toReal = b.toReal) ∧
    (a.hasRadicals = false ↔ ∃ q : ℚ, a.toReal = q) ∧
    ∀ e ∈ [ofTerms terms (.int k), a.add b, a.negate, a.scale (.int k), a.multiply b, a.power (.int n)],
      Returns e fun s => s.Reduced ∧ (s.hasRadicals = false ↔ ∃ q : ℚ, s.toReal = q) := by
  have ha' : a.Denotes a.toReal := ⟨ha.integral, rfl⟩
  have hb' : b.Denotes b.toReal := ⟨hb.integral, rfl⟩
  have hterms' : TermsDenote terms (terms.map Term.toReal).sum := ⟨fun t ht => (hterms t ht).1, rfl⟩
  refine ⟨ha.equal_iff hb, ha.hasRadicals_iff, ?_⟩
  simp only [List.forall_mem_cons]
  refine ⟨?_, ?_, ?_, ?_, ?_, ?_, List.forall_mem_nil _⟩
  · exact returns_reduced (ofTerms_returns hterms' k) (ofTerms_canonical (fun t ht => (hterms t ht).2) _)
  · exact returns_reduced (add_returns ha' hb') (add_canonical ha.canonical hb.canonical)
  · exact returns_reduced (negate_returns ha') (scale_canonical ha.canonical _)
  · exact returns_reduced (scale_returns ha' k) (scale_canonical ha.canonical _)
  · exact returns_reduced (multiply_returns ha' hb') (multiply_canonical ha.canonical hb.canonical)
  · exact returns_reduced (power_returns ha' n) (power_canonical ha.canonical n)

/-- Multiples of square-free roots, as a reduced sum. -/
theorem Roots.reduced (h : Roots ps) (k : ℤ) : (ofRoots k ps).Reduced := by
  refine ⟨⟨⟨?_, ?_⟩, ?_⟩, ⟨k, rfl⟩, ?_⟩
  · intro a ha
    obtain ⟨t, ht, rfl⟩ := List.mem_map.mp ha
    obtain ⟨p, hp, rfl⟩ := List.mem_map.mp ht
    obtain ⟨large, free, _⟩ := h.each p hp
    exact ⟨p.1, large, free, rfl⟩
  · show ((ps.map rootTerm).map Term.radicand).Nodup
    rw [map_radicand_rootTerm]
    exact h.distinct.map fun r r' same => Int.ofNat.inj (Number.int.inj same)
  · intro t ht
    obtain ⟨p, hp, rfl⟩ := List.mem_map.mp ht
    rw [rootTerm, Number.isZero_int]
    exact decide_eq_false (h.each p hp).2.2
  · intro t ht
    obtain ⟨p, hp, rfl⟩ := List.mem_map.mp ht
    have positive : 0 < p.1 := Nat.lt_of_lt_of_le Nat.zero_lt_two (h.each p hp).1
    exact ⟨p.2, p.1, Int.natCast_pos.mpr positive, rfl⟩

/-- The sums `1 + √2 - 3√5` and `1 - 3√5 + √2`. -/
theorem reduced_unique_surds :
    (ofRoots 1 [(2, 1), (5, -3)]).Reduced ∧ (ofRoots 1 [(5, -3), (2, 1)]).Reduced ∧
    (∀ t ∈ [(⟨2, 2⟩ : Term)], t.Integral ∧ t.SquareFree) ∧
    (ofRoots 1 [(2, 1), (5, -3)]).equal (ofRoots 1 [(5, -3), (2, 1)]) = true ∧
    ¬∃ q : ℚ, (ofRoots 1 [(2, 1), (5, -3)]).toReal = q := by
  have two : 2 ≤ 2 ∧ Squarefree 2 ∧ (1 : ℤ) ≠ 0 := ⟨le_rfl, Nat.prime_two.squarefree, one_ne_zero⟩
  have five : 2 ≤ 5 ∧ Squarefree 5 ∧ (-3 : ℤ) ≠ 0 := ⟨by decide, Nat.prime_five.squarefree, by decide⟩
  have ha : (ofRoots 1 [(2, 1), (5, -3)]).Reduced :=
    Roots.reduced ⟨List.forall_mem_cons.mpr ⟨two, List.forall_mem_singleton.mpr five⟩, by decide⟩ 1
  have hb : (ofRoots 1 [(5, -3), (2, 1)]).Reduced :=
    Roots.reduced ⟨List.forall_mem_cons.mpr ⟨five, List.forall_mem_singleton.mpr two⟩, by decide⟩ 1
  have hterms : ∀ t ∈ [(⟨2, 2⟩ : Term)], t.Integral ∧ t.SquareFree :=
    List.forall_mem_singleton.mpr ⟨⟨2, 2, two_pos, rfl⟩, 2, Nat.prime_two.squarefree, rfl⟩
  obtain ⟨equal, rational, _⟩ := reduced_unique ha hb hterms 1 2
  refine ⟨ha, hb, hterms, equal.mpr ?_, fun h => ?_⟩
  · rw [toReal_ofRoots, toReal_ofRoots]
    norm_num
    ring
  · exact absurd (rational.mpr h) (by decide)

end Surd.RadicalSum
