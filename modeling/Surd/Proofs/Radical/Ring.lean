import Surd.Proofs.Radical.Unique

/-!
# Ring laws of radical sums

Up to equality of sums, the reduced sums are a commutative ring under the exact operations (`ring_laws`), so what a sum
or a product of many of them comes to does not depend on their order and grouping.

The laws are not proved on terms: where radicands are merged, cancelled or factored differs from one side of a law to
the other. Both sides succeed with reduced sums that have the same real value, and such sums are equal.
-/

namespace Surd.RadicalSum

/-- The computation succeeds with a reduced sum of this value. -/
def Computes (e : Except Fault RadicalSum) (x : ℝ) : Prop :=
  Returns e fun s => s.Reduced ∧ s.toReal = x

/-- Both computations succeed, and their results are equal sums. -/
def Agree (e f : Except Fault RadicalSum) : Prop :=
  Returns e fun s => Returns f fun t => s.equal t = true

variable {s a b c : RadicalSum} {e f : Except Fault RadicalSum} {x y : ℝ}

theorem Computes.agree (he : Computes e x) (hf : Computes f y) (h : x = y) : Agree e f := by
  obtain ⟨s, rfl, hs, rfl⟩ := he
  obtain ⟨t, rfl, ht, rfl⟩ := hf
  exact .ok (.ok ((hs.equal_iff ht).mpr h))

/-- What an exact operation computes from its canonical result and its exact value. -/
theorem computes_of_returns (canonical : ReturnsUnless .integerTooLarge e Canonical)
    (exact : Returns e (Denotes · x)) : Computes e x :=
  (canonical.and exact).mono fun _ ⟨canonical, denotes⟩ => ⟨⟨canonical, denotes.integral⟩, denotes.value⟩

theorem Reduced.denotes (h : s.Reduced) : s.Denotes s.toReal := ⟨h.integral, rfl⟩

theorem Reduced.computes (h : s.Reduced) : Computes (.ok s) s.toReal := .ok ⟨h, rfl⟩

theorem computes_constant (k : ℤ) : Computes (ofTerms [] (.int k)) k := by
  apply computes_of_returns
  · exact ofTerms_canonical (List.forall_mem_nil _) _
  · simpa using ofTerms_returns TermsDenote.nil k

theorem Reduced.add_computes (ha : a.Reduced) (hb : b.Reduced) : Computes (a.add b) (a.toReal + b.toReal) :=
  computes_of_returns (add_canonical ha.canonical hb.canonical) (add_returns ha.denotes hb.denotes)

theorem Reduced.negate_computes (ha : a.Reduced) : Computes a.negate (-a.toReal) :=
  computes_of_returns (scale_canonical ha.canonical _) (negate_returns ha.denotes)

theorem Reduced.multiply_computes (ha : a.Reduced) (hb : b.Reduced) :
    Computes (a.multiply b) (a.toReal * b.toReal) :=
  computes_of_returns (multiply_canonical ha.canonical hb.canonical) (multiply_returns ha.denotes hb.denotes)

theorem Computes.add (he : Computes e x) (hf : Computes f y) :
    Computes (do (← e).add (← f)) (x + y) := by
  apply he.bind
  rintro s ⟨hs, rfl⟩
  apply hf.bind
  rintro t ⟨ht, rfl⟩
  exact hs.add_computes ht

theorem Computes.multiply (he : Computes e x) (hf : Computes f y) :
    Computes (do (← e).multiply (← f)) (x * y) := by
  apply he.bind
  rintro s ⟨hs, rfl⟩
  apply hf.bind
  rintro t ⟨ht, rfl⟩
  exact hs.multiply_computes ht

/-! ## Order and grouping -/

/-- Operands in an order, with parentheses around two at a time. -/
inductive Grouping where
  | single (s : RadicalSum)
  | join (left right : Grouping)

namespace Grouping

/-- The operands from left to right. -/
def operands : Grouping → List RadicalSum
  | single s => [s]
  | join l r => l.operands ++ r.operands

/-- The result of an operation on all operands, as they are grouped. -/
def combine (op : RadicalSum → RadicalSum → Except Fault RadicalSum) : Grouping → Except Fault RadicalSum
  | single s => .ok s
  | join l r => do op (← l.combine op) (← r.combine op)

/-- An operation that computes a total of two operands computes that of a grouping. -/
theorem combine_computes {op : RadicalSum → RadicalSum → Except Fault RadicalSum} {total : List ℝ → ℝ}
    (one : ∀ x, total [x] = x)
    (two : ∀ {e f : Except Fault RadicalSum} {xs ys : List ℝ}, Computes e (total xs) → Computes f (total ys) →
      Computes (do op (← e) (← f)) (total (xs ++ ys)))
    {g : Grouping} (reduced : ∀ s ∈ g.operands, s.Reduced) :
    Computes (g.combine op) (total (g.operands.map toReal)) := by
  induction g with
  | single s =>
      rw [operands, List.map_singleton, one]
      exact (reduced s (List.mem_singleton_self s)).computes
  | join l r ihl ihr =>
      obtain ⟨left, right⟩ := List.forall_mem_append.mp reduced
      rw [operands, List.map_append]
      exact two (ihl left) (ihr right)

theorem combine_add_computes {g : Grouping} (reduced : ∀ s ∈ g.operands, s.Reduced) :
    Computes (g.combine add) (g.operands.map toReal).sum :=
  combine_computes (fun _ => List.sum_singleton) (fun he hf => by simpa using he.add hf) reduced

theorem combine_multiply_computes {g : Grouping} (reduced : ∀ s ∈ g.operands, s.Reduced) :
    Computes (g.combine multiply) (g.operands.map toReal).prod :=
  combine_computes (fun _ => List.prod_singleton) (fun he hf => by simpa using he.multiply hf) reduced

end Grouping

/-! ## The laws -/

/-- Reduced sums are a commutative ring up to equality: sums and products are commutative and associative, zero and one
are neutral, the opposite is an inverse, and products distribute over sums. Two groupings of the same operands, in
whatever order, have equal sums and equal products. All of these computations succeed. -/
theorem ring_laws (ha : a.Reduced) (hb : b.Reduced) (hc : c.Reduced) :
    Agree (a.add b) (b.add a) ∧
    Agree (do (← a.add b).add c) (do a.add (← b.add c)) ∧
    Agree (do a.add (← ofTerms [] 0)) (.ok a) ∧
    Agree (do a.add (← a.negate)) (ofTerms [] 0) ∧
    Agree (a.multiply b) (b.multiply a) ∧
    Agree (do (← a.multiply b).multiply c) (do a.multiply (← b.multiply c)) ∧
    Agree (do a.multiply (← ofTerms [] 1)) (.ok a) ∧
    Agree (do a.multiply (← b.add c)) (do (← a.multiply b).add (← a.multiply c)) ∧
    ∀ g h : Grouping, (∀ s ∈ g.operands, s.Reduced) → g.operands.Perm h.operands →
      Agree (g.combine add) (h.combine add) ∧ Agree (g.combine multiply) (h.combine multiply) := by
  have zero : Computes (ofTerms [] 0) (0 : ℤ) := computes_constant 0
  have one : Computes (ofTerms [] 1) (1 : ℤ) := computes_constant 1
  rw [Int.cast_zero] at zero
  rw [Int.cast_one] at one
  refine ⟨?_, ?_, ?_, ?_, ?_, ?_, ?_, ?_, ?_⟩
  · exact (ha.add_computes hb).agree (hb.add_computes ha) (add_comm _ _)
  · exact ((ha.add_computes hb).add hc.computes).agree (ha.computes.add (hb.add_computes hc)) (add_assoc _ _ _)
  · exact (ha.computes.add zero).agree ha.computes (add_zero _)
  · exact (ha.computes.add ha.negate_computes).agree zero (add_neg_cancel _)
  · exact (ha.multiply_computes hb).agree (hb.multiply_computes ha) (mul_comm _ _)
  · exact ((ha.multiply_computes hb).multiply hc.computes).agree
      (ha.computes.multiply (hb.multiply_computes hc)) (mul_assoc _ _ _)
  · exact (ha.computes.multiply one).agree ha.computes (mul_one _)
  · exact (ha.computes.multiply (hb.add_computes hc)).agree
      ((ha.multiply_computes hb).add (ha.multiply_computes hc)) (mul_add _ _ _)
  · intro g h reduced perm
    have reduced' : ∀ s ∈ h.operands, s.Reduced := fun s hs => reduced s (perm.mem_iff.mpr hs)
    constructor
    · exact (Grouping.combine_add_computes reduced).agree (Grouping.combine_add_computes reduced')
        (perm.map toReal).sum_eq
    · exact (Grouping.combine_multiply_computes reduced).agree (Grouping.combine_multiply_computes reduced')
        (perm.map toReal).prod_eq

/-- The product of `1 + √2`, `√6` and `3√15` in its two groupings: `√6` and `3√15` share a factor with each other,
`√2` and `√6` another. -/
theorem ring_laws_surds :
    (ofRoots 1 [(2, 1)]).Reduced ∧ (ofRoots 0 [(6, 1)]).Reduced ∧ (ofRoots 0 [(15, 3)]).Reduced ∧
    Agree (do (← (ofRoots 1 [(2, 1)]).multiply (ofRoots 0 [(6, 1)])).multiply (ofRoots 0 [(15, 3)]))
      (do (ofRoots 1 [(2, 1)]).multiply (← (ofRoots 0 [(6, 1)]).multiply (ofRoots 0 [(15, 3)]))) := by
  have ha : (ofRoots 1 [(2, 1)]).Reduced := Roots.reduced ⟨by simp [Nat.prime_two.squarefree], by decide⟩ 1
  have six : Squarefree 6 := by decide +kernel
  have hb : (ofRoots 0 [(6, 1)]).Reduced := Roots.reduced ⟨by simp [six], by decide⟩ 0
  have fifteen : Squarefree 15 := by decide +kernel
  have hc : (ofRoots 0 [(15, 3)]).Reduced := Roots.reduced ⟨by simp [fifteen], by decide⟩ 0
  obtain ⟨_, _, _, _, _, associative, _⟩ := ring_laws ha hb hc
  exact ⟨ha, hb, hc, associative⟩

end Surd.RadicalSum
