import Surd.Proofs.Number.Value
import Surd.Proofs.Returns
import Surd.Radical.Basic
import Mathlib.Analysis.Real.Sqrt

/-!
# The real value of a radical sum

A radical sum stands for its constant plus each coefficient times the root of its radicand. On whole numbers the
normal form of `RadicalSum.ofTerms` keeps this value: terms are merged under one radicand, those with the root of
one go to the constant, and nothing but zero is negligible.
-/

namespace Surd

namespace Term

/-- The real value of a term. -/
noncomputable def toReal (t : Term) : ℝ := t.coefficient.toReal * √t.radicand.toReal

/-- The coefficient is a whole number and the radicand a positive one. -/
def Integral (t : Term) : Prop := ∃ c r : Int, 0 < r ∧ t = ⟨.int c, .int r⟩

theorem toReal_int (c r : Int) : toReal ⟨.int c, .int r⟩ = c * √r := rfl

theorem toReal_int_mul (c k r : Int) : toReal ⟨.int (c * k), .int r⟩ = toReal ⟨.int c, .int r⟩ * k := by
  rw [toReal_int, toReal_int]
  push_cast
  ring

end Term

namespace RadicalSum

/-- The real value of a sum. -/
noncomputable def toReal (s : RadicalSum) : ℝ :=
  s.constant.toReal + (s.terms.map Term.toReal).sum

/-- The constant and the coefficients are whole numbers and the radicands positive ones. -/
structure Integral (s : RadicalSum) : Prop where
  constant : ∃ k : Int, s.constant = .int k
  terms : ∀ t ∈ s.terms, t.Integral

/-- Terms over the whole numbers whose values add up to this one. -/
structure TermsDenote (terms : List Term) (x : ℝ) : Prop where
  integral : ∀ t ∈ terms, t.Integral
  value : (terms.map Term.toReal).sum = x

theorem TermsDenote.nil : TermsDenote [] 0 := ⟨List.forall_mem_nil _, rfl⟩

theorem TermsDenote.cons {t : Term} {terms : List Term} {x : ℝ} (ht : t.Integral)
    (h : TermsDenote terms x) : TermsDenote (t :: terms) (t.toReal + x) :=
  ⟨List.forall_mem_cons.mpr ⟨ht, h.integral⟩, congrArg (t.toReal + ·) h.value⟩

theorem TermsDenote.append {terms terms' : List Term} {x y : ℝ} (h : TermsDenote terms x)
    (h' : TermsDenote terms' y) : TermsDenote (terms ++ terms') (x + y) := by
  refine ⟨List.forall_mem_append.mpr ⟨h.integral, h'.integral⟩, ?_⟩
  rw [List.map_append, List.sum_append, h.value, h'.value]

/-- A sum over the whole numbers with this real value. -/
structure Denotes (s : RadicalSum) (x : ℝ) : Prop where
  integral : s.Integral
  value : s.toReal = x

theorem denotes_iff {s : RadicalSum} {x : ℝ} :
    s.Denotes x ↔ ∃ terms k y, s = ⟨terms, .int k⟩ ∧ TermsDenote terms y ∧ k + y = x := by
  constructor
  · rintro ⟨⟨⟨k, hk⟩, hterms⟩, hx⟩
    obtain ⟨terms, _⟩ := s
    obtain rfl := hk
    exact ⟨terms, k, _, rfl, ⟨hterms, rfl⟩, hx⟩
  · rintro ⟨terms, k, y, rfl, ⟨hterms, rfl⟩, rfl⟩
    exact ⟨⟨⟨k, rfl⟩, hterms⟩, rfl⟩

/-! ## The normal form -/

namespace Merged

/-- The real value of merged coefficients. -/
noncomputable def toReal (merged : Merged) : ℝ :=
  (merged.map fun m => m.2.toReal * √(m.1 : ℝ)).sum

theorem toReal_cons (r : Int) (c : Number) (rest : Merged) :
    toReal ((r, c) :: rest) = c.toReal * √(r : ℝ) + toReal rest := List.sum_cons

/-- The radicands are positive and the coefficients whole numbers. -/
def Integral (merged : Merged) : Prop := ∀ m ∈ merged, 0 < m.1 ∧ ∃ c : Int, m.2 = .int c

/-- A coefficient joins those of its radicand. -/
theorem add_returns {merged : Merged} (h : Integral merged) {r : Int} (hr : 0 < r) (c : Int) :
    Returns (merged.add r (.int c)) fun m =>
      Integral m ∧ toReal m = toReal merged + c * √(r : ℝ) := by
  induction merged with
  | nil =>
      refine .ok ⟨List.forall_mem_singleton.mpr ⟨hr, 0 + c, rfl⟩, ?_⟩
      show ((0 + c : Int) : ℝ) * √(r : ℝ) + 0 = 0 + c * √(r : ℝ)
      rw [Int.zero_add, add_comm]
  | cons m rest ih =>
      obtain ⟨⟨hm, d, hd⟩, hrest⟩ := List.forall_mem_cons.mp h
      obtain ⟨r', c'⟩ := m
      obtain rfl : c' = .int d := hd
      rw [add]
      split
      · rename_i same
        refine .ok ⟨List.forall_mem_cons.mpr ⟨⟨hm, d + c, rfl⟩, hrest⟩, ?_⟩
        rw [toReal_cons, toReal_cons, Number.toReal_int, Number.toReal_int, ← same]
        push_cast
        ring
      · refine (ih hrest).bind fun merged ⟨hmerged, value⟩ => .ok ⟨?_, ?_⟩
        · exact List.forall_mem_cons.mpr ⟨⟨hm, d, rfl⟩, hmerged⟩
        · rw [toReal_cons, toReal_cons, value, add_assoc]

end Merged

/-- A constant and merged coefficients over the whole numbers that together have this real value. -/
structure Gathers (acc : Number × Merged) (x : ℝ) : Prop where
  constant : ∃ k : Int, acc.1 = .int k
  merged : Merged.Integral acc.2
  value : acc.1.toReal + Merged.toReal acc.2 = x

theorem mergeTerm_returns {acc : Number × Merged} {x : ℝ} (h : Gathers acc x) {t : Term}
    (ht : t.Integral) : Returns (mergeTerm acc t) (Gathers · (x + t.toReal)) := by
  obtain ⟨k, merged⟩ := acc
  obtain ⟨⟨k, rfl⟩, hmerged, value⟩ := h
  obtain ⟨c, r, hr, rfl⟩ := ht
  dsimp only at hmerged value
  simp only [mergeTerm, Number.isZero_int, decide_eq_true_eq, if_neg hr.ne']
  split
  · rename_i one
    obtain rfl : r = 1 := of_decide_eq_true ((Number.equal_int r 1).symm.trans one)
    refine .ok ⟨⟨k + c, rfl⟩, hmerged, ?_⟩
    rw [Term.toReal_int, ← value, Int.cast_one, Real.sqrt_one, mul_one, Number.toReal_int,
      Number.toReal_int]
    push_cast
    ring
  · refine (Merged.add_returns hmerged hr c).bind fun m ⟨hm, added⟩ => .ok ⟨⟨k, rfl⟩, hm, ?_⟩
    rw [added, ← add_assoc, value, Term.toReal_int]

/-- The terms that are left of merged coefficients: only zero is dropped. -/
theorem termsDenote_merged {merged : Merged} (h : Merged.Integral merged) :
    TermsDenote ((merged.filter fun m => !m.2.isNegligible).map fun m => ⟨m.2.normalize, .int m.1⟩)
      (Merged.toReal merged) := by
  induction merged with
  | nil => exact .nil
  | cons m rest ih =>
      obtain ⟨⟨hm, c, hc⟩, hrest⟩ := List.forall_mem_cons.mp h
      obtain ⟨r, _⟩ := m
      obtain rfl := hc
      rw [Merged.toReal_cons, List.filter_cons, Number.isNegligible_int]
      by_cases hz : c = 0
      · rw [hz, Number.toReal_int, Int.cast_zero, zero_mul, zero_add]
        exact ih hrest
      · rw [if_pos (by rw [decide_eq_false hz]; rfl), List.map_cons]
        exact (ih hrest).cons ⟨c, r, hm, rfl⟩

theorem constant_int (c : Int) :
    (if (Number.int c).isNegligible then 0 else (Number.int c).normalize) = .int c := by
  rw [Number.isNegligible_int, Number.normalize_int]
  split
  · rename_i zero
    rw [of_decide_eq_true zero]
    rfl
  · rfl

/-- The normal form has the value of the terms and the constant. -/
theorem ofTerms_returns {terms : List Term} {x : ℝ} (h : TermsDenote terms x) (k : Int) :
    Returns (ofTerms terms (.int k)) (Denotes · (k + x)) := by
  have start : Gathers (.int k, []) k := ⟨⟨k, rfl⟩, List.forall_mem_nil _, add_zero _⟩
  have step : ∀ t ∈ terms, ∀ acc y, Gathers acc y →
      Returns (mergeTerm acc t) (Gathers · (y + t.toReal)) :=
    fun t ht acc y hacc => mergeTerm_returns hacc (h.integral t ht)
  refine (Returns.foldlM Gathers step start).bind ?_
  rintro ⟨_, merged⟩ ⟨⟨c, rfl⟩, hmerged, value⟩
  rw [h.value] at value
  obtain ⟨integral, sum⟩ := termsDenote_merged hmerged
  refine .ok ⟨⟨⟨c, constant_int c⟩, integral⟩, ?_⟩
  rw [toReal, sum]
  dsimp only
  rw [constant_int, value]

/-- A whole double below 2 ^ 53 on its own becomes a sum over the whole numbers. -/
theorem ofTerms_real_returns {x : Double} {n : Int} (hx : x.isFinite = true) (hn : x.toReal = n)
    (hlt : n.natAbs < 2 ^ 53) : Returns (ofTerms [] (.real x)) (Denotes · n) := by
  have constant : (if (Number.real x).isNegligible then 0 else (Number.real x).normalize) = .int n := by
    split
    · rename_i negligible
      rw [Number.eq_zero_of_isNegligible hx hn negligible]
      rfl
    · exact Number.normalize_real hx hn hlt
  refine .ok (denotes_iff.mpr ⟨[], n, 0, ?_, .nil, add_zero _⟩)
  exact congrArg (RadicalSum.mk []) constant

end RadicalSum

end Surd
