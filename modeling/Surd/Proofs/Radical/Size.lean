import Surd.Proofs.Radical.Exact
import Surd.Proofs.Radical.Finite

/-!
# The size of a radical sum

The size of a sum is that of its constant and its terms without their signs. It bounds the constant and every
coefficient, and on whole numbers neither what is merged nor what is factored makes it grow: the normal form has the size
of the terms and the constant at most (`ofTerms_size`), and a product has the product of the sizes at most
(`multiply_size`).
-/

namespace Surd

namespace Term

/-- The size of a term. -/
noncomputable def size (t : Term) : ℝ := |t.coefficient.toReal| * √t.radicand.toReal

theorem size_nonneg (t : Term) : 0 ≤ t.size := mul_nonneg (abs_nonneg _) (Real.sqrt_nonneg _)

theorem size_eq_abs (t : Term) : t.size = |t.toReal| := by
  rw [size, toReal, abs_mul, abs_of_nonneg (Real.sqrt_nonneg _)]

theorem size_int (c r : Int) : size ⟨.int c, .int r⟩ = |(c : ℝ)| * √(r : ℝ) := rfl

/-- A term over the whole numbers has the size of its coefficient at least. -/
theorem Integral.abs_coefficient_le {t : Term} (h : t.Integral) : |t.coefficient.toReal| ≤ t.size := by
  obtain ⟨c, r, hr, rfl⟩ := h
  have one : 1 ≤ √(r : ℝ) := Real.one_le_sqrt.mpr (by exact_mod_cast hr)
  exact le_mul_of_one_le_right (abs_nonneg _) one

end Term

namespace RadicalSum

variable {s t : RadicalSum} {terms : List Term} {x : ℝ}

/-- The size of a sum: that of its constant and those of its terms. -/
noncomputable def size (s : RadicalSum) : ℝ := |s.constant.toReal| + (s.terms.map Term.size).sum

theorem sum_size_nonneg (terms : List Term) : 0 ≤ (terms.map Term.size).sum :=
  List.sum_nonneg (by simpa using fun t _ => t.size_nonneg)

theorem size_nonneg (s : RadicalSum) : 0 ≤ s.size := add_nonneg (abs_nonneg _) (sum_size_nonneg _)

theorem abs_constant_le_size (s : RadicalSum) : |s.constant.toReal| ≤ s.size :=
  le_add_of_nonneg_right (sum_size_nonneg _)

theorem Integral.abs_coefficient_le_size (h : s.Integral) {t : Term} (ht : t ∈ s.terms) :
    |t.coefficient.toReal| ≤ s.size := by
  have one : t.size ≤ (s.terms.map Term.size).sum :=
    List.single_le_sum (by simpa using fun t _ => t.size_nonneg) _ (List.mem_map_of_mem ht)
  exact ((h.terms t ht).abs_coefficient_le.trans one).trans (le_add_of_nonneg_left (abs_nonneg _))

/-! ## The normal form -/

namespace Merged

/-- The size of merged coefficients. -/
noncomputable def size (merged : Merged) : ℝ := (merged.map fun m => |m.2.toReal| * √(m.1 : ℝ)).sum

theorem size_cons (r : Int) (c : Number) (rest : Merged) :
    size ((r, c) :: rest) = |c.toReal| * √(r : ℝ) + size rest := List.sum_cons

/-- A coefficient adds its size at most to those of its radicand. -/
theorem add_size {merged : Merged} (h : Integral merged) (r c : Int) :
    Returns (merged.add r (.int c)) fun m => size m ≤ size merged + |(c : ℝ)| * √(r : ℝ) := by
  induction merged with
  | nil =>
      refine .ok (le_of_eq ?_)
      show |((0 + c : Int) : ℝ)| * √(r : ℝ) + 0 = 0 + |(c : ℝ)| * √(r : ℝ)
      rw [Int.zero_add, add_comm]
  | cons m rest ih =>
      obtain ⟨⟨_, d, hd⟩, hrest⟩ := List.forall_mem_cons.mp h
      obtain ⟨r', c'⟩ := m
      obtain rfl : c' = .int d := hd
      rw [add]
      split
      · rename_i same
        obtain rfl := same
        have triangle : |((d + c : Int) : ℝ)| ≤ |(d : ℝ)| + |(c : ℝ)| := by
          push_cast
          exact abs_add_le _ _
        have scaled := mul_le_mul_of_nonneg_right triangle (Real.sqrt_nonneg (r' : ℝ))
        refine .ok ?_
        rw [size_cons, size_cons, Number.toReal_int, Number.toReal_int]
        linarith
      · refine (ih hrest).bind fun merged grown => .ok ?_
        rw [size_cons, size_cons, add_assoc]
        exact add_le_add_right grown _

end Merged

/-- A constant and merged coefficients over the whole numbers that together have this size at most. -/
structure Within (acc : Number × Merged) (x : ℝ) : Prop where
  constant : ∃ k : Int, acc.1 = .int k
  merged : Merged.Integral acc.2
  size : |acc.1.toReal| + Merged.size acc.2 ≤ x

theorem mergeTerm_size {acc : Number × Merged} (h : Within acc x) {t : Term} (ht : t.Integral) :
    Returns (mergeTerm acc t) (Within · (x + t.size)) := by
  obtain ⟨k, merged⟩ := acc
  obtain ⟨⟨k, rfl⟩, hmerged, size⟩ := h
  obtain ⟨c, r, hr, rfl⟩ := ht
  dsimp only at hmerged size
  simp only [mergeTerm, Number.isZero_int, decide_eq_true_eq, if_neg hr.ne']
  split
  · rename_i one
    obtain rfl : r = 1 := of_decide_eq_true ((Number.equal_int r 1).symm.trans one)
    have triangle : |((k + c : Int) : ℝ)| ≤ |(k : ℝ)| + |(c : ℝ)| := by
      push_cast
      exact abs_add_le _ _
    refine .ok ⟨⟨k + c, rfl⟩, hmerged, ?_⟩
    rw [Term.size_int, Int.cast_one, Real.sqrt_one, mul_one]
    rw [Number.toReal_int] at size ⊢
    linarith
  · apply ((Merged.add_returns hmerged hr c).and (Merged.add_size hmerged r c)).bind
    rintro m ⟨⟨integral, _⟩, grown⟩
    refine .ok ⟨⟨k, rfl⟩, integral, ?_⟩
    rw [Term.size_int]
    linarith

/-- What is left of merged coefficients has their size: only zero is dropped. -/
theorem sum_size_merged {merged : Merged} (h : Merged.Integral merged) :
    (((merged.filter fun m => !m.2.isNegligible).map fun m => (⟨m.2.normalize, .int m.1⟩ : Term)).map Term.size).sum =
      Merged.size merged := by
  induction merged with
  | nil => rfl
  | cons m rest ih =>
      obtain ⟨⟨_, c, hc⟩, hrest⟩ := List.forall_mem_cons.mp h
      obtain ⟨r, _⟩ := m
      obtain rfl := hc
      rw [Merged.size_cons, List.filter_cons, Number.isNegligible_int, ← ih hrest]
      by_cases hz : c = 0
      · simp [hz]
      · simp [hz, Term.size_int]

/-- The normal form has the size of the terms and the constant at most. -/
theorem ofTerms_size (integral : ∀ t ∈ terms, t.Integral) (k : Int) :
    Returns (ofTerms terms (.int k)) fun s => s.Integral ∧ s.size ≤ |(k : ℝ)| + (terms.map Term.size).sum := by
  have start : Within (.int k, []) |(k : ℝ)| := ⟨⟨k, rfl⟩, List.forall_mem_nil _, (add_zero _).le⟩
  have step : ∀ t ∈ terms, ∀ acc y, Within acc y → Returns (mergeTerm acc t) (Within · (y + t.size)) :=
    fun t ht acc y hacc => mergeTerm_size hacc (integral t ht)
  refine (Returns.foldlM Within step start).bind ?_
  rintro ⟨_, merged⟩ ⟨⟨c, rfl⟩, hmerged, size⟩
  refine .ok ⟨⟨⟨c, constant_int c⟩, (termsDenote_merged hmerged).integral⟩, ?_⟩
  rw [RadicalSum.size, sum_size_merged hmerged]
  dsimp only
  rwa [constant_int]

/-! ## Products -/

theorem multiplyTerms_size {a b : Term} (ha : a.Integral) (hb : b.Integral) :
    Returns (multiplyTerms a b) fun t => t.Integral ∧ t.size = a.size * b.size := by
  apply (multiplyTerms_returns ha hb).mono
  rintro t ⟨integral, value⟩
  refine ⟨integral, ?_⟩
  rw [Term.size_eq_abs, Term.size_eq_abs, Term.size_eq_abs, value, abs_mul]

theorem termsTimes_size (integral : ∀ t ∈ terms, t.Integral) (k : Int) :
    Returns (termsTimes terms (.int k)) fun ts =>
      (∀ t ∈ ts, t.Integral) ∧ (ts.map Term.size).sum = (terms.map Term.size).sum * |(k : ℝ)| := by
  refine termsTimes_measured integral k (fun zero => by rw [zero, Int.cast_zero, abs_zero]) fun c r => ?_
  rw [Term.size_eq_abs, Term.size_eq_abs, Term.toReal_int_mul, abs_mul]

/-- A product has the product of the sizes at most. -/
theorem multiply_size (hs : s.Integral) (ht : t.Integral) :
    Returns (s.multiply t) fun r => r.Integral ∧ r.size ≤ s.size * t.size := by
  obtain ⟨⟨j, hj⟩, hterms⟩ := hs
  obtain ⟨⟨k, hk⟩, hterms'⟩ := ht
  obtain ⟨terms, _⟩ := s
  obtain ⟨terms', _⟩ := t
  obtain rfl := hj
  obtain rfl := hk
  apply (crossed_measured hterms hterms' fun _ _ => multiplyTerms_size).bind
  rintro crossed ⟨hcrossed, size⟩
  apply (termsTimes_size hterms k).bind
  rintro left ⟨hleft, size_left⟩
  apply (termsTimes_size hterms' j).bind
  rintro right ⟨hright, size_right⟩
  have all : ∀ t ∈ crossed.flatten ++ left ++ right, t.Integral :=
    List.forall_mem_append.mpr ⟨List.forall_mem_append.mpr ⟨hcrossed, hleft⟩, hright⟩
  apply (ofTerms_size all (j * k)).mono
  rintro r ⟨integral, bound⟩
  refine ⟨integral, bound.trans_eq ?_⟩
  rw [List.map_append, List.map_append, List.sum_append, List.sum_append, size, size_left, size_right]
  simp only [RadicalSum.size, Number.toReal_int]
  push_cast
  rw [abs_mul]
  ring

theorem integral_one : (ofConstant 1).Integral := denotes_one.integral

theorem size_one : (ofConstant 1).size = 1 := by
  show |((1 : Int) : ℝ)| + 0 = 1
  norm_num

/-! ## The range of doubles -/

/-- The constant and the coefficients are within the range of doubles. -/
structure InRange (s : RadicalSum) : Prop where
  constant : |s.constant.toReal| ≤ Double.greatest.toReal
  coefficient : ∀ t ∈ s.terms, |t.coefficient.toReal| ≤ Double.greatest.toReal

/-- A sum below the greatest double is within the range of doubles, and none of its numbers overflows. -/
theorem Integral.inRange (h : s.Integral) (small : s.size < Double.greatest.toReal) :
    s.InRange ∧ s.isFinite = true := by
  have finite : ∀ c : Int, |(c : ℝ)| ≤ s.size → (Number.int c).isFinite = true := fun c hc =>
    Number.isFinite_int (Double.isFinite_ofInt_of_lt (hc.trans_lt small))
  refine ⟨⟨s.abs_constant_le_size.trans small.le, fun t ht => (h.abs_coefficient_le_size ht).trans small.le⟩, ?_⟩
  refine isFinite_iff.mpr ⟨?_, fun t ht => ?_⟩
  · obtain ⟨k, hk⟩ := h.constant
    have bound := s.abs_constant_le_size
    rw [hk] at bound ⊢
    exact finite k bound
  · have bound := h.abs_coefficient_le_size ht
    obtain ⟨c, r, _, rfl⟩ := h.terms t ht
    exact finite c bound

end RadicalSum

end Surd
