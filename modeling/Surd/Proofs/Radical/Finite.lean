import Surd.Proofs.Radical.Canonical

/-!
# Finite canonical sums

Where the constant and the coefficients of canonical sums have doubles, sums of them and their multiples and quotients by
doubles are computed without a fault: each radicand stands at most once in either operand, so no coefficient is used in
an addition after it was rounded or grew. The opposite of a finite sum is finite again.
-/

namespace Surd.RadicalSum

variable {s t : RadicalSum} {terms : List Term} {P : Number → Prop}

theorem isFinite_iff : s.isFinite = true ↔
    s.constant.isFinite = true ∧ ∀ t ∈ s.terms, t.coefficient.isFinite = true := by
  rw [isFinite, Bool.and_eq_true, List.all_eq_true]

theorem Radicands.of_cons {a : Number} {rs : List Number} (h : Radicands (a :: rs)) :
    (∃ r : Nat, 2 ≤ r ∧ a = .int r) ∧ a ∉ rs ∧ Radicands rs := by
  obtain ⟨⟨r, large, _, hr⟩, rest⟩ := List.forall_mem_cons.mp h.squarefree
  obtain ⟨fresh, distinct⟩ := List.nodup_cons.mp h.distinct
  exact ⟨⟨r, large, hr⟩, fresh, rest, distinct⟩

/-! ## The normal form -/

namespace Merged

theorem add_of_fresh {merged : Merged} {r : Int} {c : Number} (fresh : .int r ∉ merged.radicands)
    (hc : Returns (Number.add 0 c) P) :
    Returns (merged.add r c) fun m => ∃ d, P d ∧ m = merged ++ [(r, d)] := by
  induction merged with
  | nil =>
      apply hc.bind
      intro d hd
      exact .ok ⟨d, hd, rfl⟩
  | cons m rest ih =>
      obtain ⟨r', c'⟩ := m
      rw [radicands_cons, List.mem_cons, not_or] at fresh
      rw [add, if_neg fun same => fresh.1 (congrArg Number.int same.symm)]
      apply (ih fresh.2).bind
      rintro m ⟨d, hd, rfl⟩
      exact .ok ⟨d, hd, rfl⟩

/-- Only the coefficient of the radicand changes, and it needs a double. -/
theorem add_of_hasDouble {merged : Merged} {r : Int} {c : Number}
    (met : ∀ m ∈ merged, m.1 = r → m.2.HasDouble) (hc : c.HasDouble) :
    Returns (merged.add r c) fun m' => ∀ m ∈ m', m ∈ merged ∨ m.1 = r := by
  induction merged with
  | nil =>
      apply (Number.zero_add_returns hc).bind
      intro d _
      exact .ok (List.forall_mem_singleton.mpr (.inr rfl))
  | cons m rest ih =>
      obtain ⟨r', c'⟩ := m
      obtain ⟨first, rest'⟩ := List.forall_mem_cons.mp met
      rw [add]
      split
      · rename_i same
        apply (Number.combine_returns (first same) hc).bind
        intro d _
        exact .ok (List.forall_mem_cons.mpr ⟨.inr same, fun m hm => .inl (List.mem_cons_of_mem _ hm)⟩)
      · apply (ih rest').bind
        intro m' hm'
        refine .ok (List.forall_mem_cons.mpr ⟨.inl List.mem_cons_self, fun m hm => ?_⟩)
        exact (hm' m hm).imp_left (List.mem_cons_of_mem _)

end Merged

/-- Terms with distinct radicands that are not there yet are each merged with zero. -/
theorem foldlM_of_fresh (h : Radicands (terms.map Term.radicand))
    (each : ∀ t ∈ terms, Returns (Number.add 0 t.coefficient) P) {k : Number} {merged : Merged}
    (fresh : ∀ t ∈ terms, t.radicand ∉ merged.radicands) :
    Returns (terms.foldlM mergeTerm (k, merged)) fun acc => acc.1 = k ∧ ∀ m ∈ acc.2, m ∈ merged ∨ P m.2 := by
  induction terms generalizing merged with
  | nil => exact .ok ⟨rfl, fun m hm => .inl hm⟩
  | cons t rest ih =>
      obtain ⟨c, _⟩ := t
      obtain ⟨⟨r, large, rfl⟩, different, hrest⟩ := h.of_cons
      obtain ⟨first, each⟩ := List.forall_mem_cons.mp each
      obtain ⟨new, fresh⟩ := List.forall_mem_cons.mp fresh
      rw [List.foldlM_cons, mergeTerm_of_two_le _ c large]
      apply ((Merged.add_of_fresh new first).bind (Q := fun acc : Number × Merged =>
        ∃ d, P d ∧ acc = (k, merged ++ [((r : Int), d)])) ?_).bind
      · rintro _ ⟨d, hd, rfl⟩
        refine (ih hrest each ?_).mono ?_
        · intro t ht
          rw [Merged.radicands_append, Merged.radicands_cons, Merged.radicands_nil, List.mem_append,
            List.mem_singleton, not_or]
          refine ⟨fresh t ht, fun same => different ?_⟩
          exact List.mem_map.mpr ⟨t, ht, same⟩
        · rintro acc ⟨constant, all⟩
          refine ⟨constant, fun m hm => ?_⟩
          obtain old | good := all m hm
          · obtain old | last := List.mem_append.mp old
            · exact .inl old
            · rw [List.mem_singleton.mp last]
              exact .inr hd
          · exact .inr good
      · rintro _ ⟨d, hd, rfl⟩
        exact .ok ⟨d, hd, rfl⟩

/-- Terms with distinct radicands meet each merged coefficient at most once. -/
theorem foldlM_of_hasDouble (h : Radicands (terms.map Term.radicand))
    (each : ∀ t ∈ terms, t.coefficient.HasDouble) {k : Number} {merged : Merged}
    (met : ∀ m ∈ merged, .int m.1 ∈ terms.map Term.radicand → m.2.HasDouble) :
    Returns (terms.foldlM mergeTerm (k, merged)) fun _ => True := by
  induction terms generalizing merged with
  | nil => exact .ok trivial
  | cons t rest ih =>
      obtain ⟨c, _⟩ := t
      obtain ⟨⟨r, large, rfl⟩, different, hrest⟩ := h.of_cons
      obtain ⟨first, each⟩ := List.forall_mem_cons.mp each
      have here : ∀ m ∈ merged, m.1 = (r : Int) → m.2.HasDouble := by
        intro m hm same
        exact met m hm (same ▸ List.mem_cons_self)
      rw [List.foldlM_cons, mergeTerm_of_two_le _ c large]
      -- The coefficient that was touched may have no double any more, but its radicand does not come again.
      apply ((Merged.add_of_hasDouble here first).bind (Q := fun acc : Number × Merged =>
        acc.1 = k ∧ ∀ m ∈ acc.2, m ∈ merged ∨ m.1 = r) ?_).bind
      · rintro ⟨_, merged'⟩ ⟨rfl, changed⟩
        refine ih hrest each fun m hm later => ?_
        obtain old | same := changed m hm
        · exact met m old (List.mem_cons_of_mem _ later)
        · rw [same] at later
          exact absurd later different
      · intro merged' changed
        exact .ok ⟨rfl, changed⟩

theorem isFinite_constant {k : Number} (h : k.isFinite = true) :
    (if k.isNegligible then 0 else k.normalize).isFinite = true := by
  split
  · rfl
  · exact Number.isFinite_normalize h

/-- The normal form of terms with distinct radicands; it is finite if the constant and what is merged are. -/
theorem ofTerms_of_distinct (h : Radicands (terms.map Term.radicand))
    (each : ∀ t ∈ terms, Returns (Number.add 0 t.coefficient) P) (k : Number) :
    Returns (ofTerms terms k) fun s =>
      s.Canonical ∧ (k.isFinite = true → (∀ c, P c → c.isFinite = true) → s.isFinite = true) := by
  apply (ofTerms_canonical h.squareFree k).and
  have fold : Returns (terms.foldlM mergeTerm (k, [])) fun acc => acc.1 = k ∧ ∀ m ∈ acc.2, m ∈ [] ∨ P m.2 :=
    foldlM_of_fresh h each fun t _ => List.not_mem_nil
  apply fold.bind
  rintro ⟨_, merged⟩ ⟨rfl, all⟩
  refine .ok fun hk finite => isFinite_iff.mpr ⟨isFinite_constant hk, fun t ht => ?_⟩
  obtain ⟨m, hm, rfl⟩ := List.mem_map.mp ht
  obtain none | good := all m (List.mem_of_mem_filter hm)
  · cases none
  · exact Number.isFinite_normalize (finite _ good)

/-! ## Operations -/

/-- The canonical sums whose constant and coefficients are finite. -/
structure Finite (s : RadicalSum) : Prop where
  canonical : s.Canonical
  isFinite : s.isFinite = true

theorem Finite.constant (h : s.Finite) : s.constant.HasDouble :=
  Number.hasDouble_of_isFinite (isFinite_iff.mp h.isFinite).1

theorem Finite.coefficient (h : s.Finite) : ∀ t ∈ s.terms, t.coefficient.HasDouble := fun t ht =>
  Number.hasDouble_of_isFinite ((isFinite_iff.mp h.isFinite).2 t ht)

/-- The terms of a finite sum with another constant. -/
theorem ofTerms_of_finite (hs : s.Finite) (k : Number) : Returns (ofTerms s.terms k) Canonical :=
  (ofTerms_of_distinct hs.canonical.radicands (fun t ht => Number.zero_add_returns (hs.coefficient t ht)) k).mono
    fun _ h => h.1

theorem add_of_finite (hs : s.Finite) (ht : t.Finite) : Returns (s.add t) Canonical := by
  have succeeds : Returns (s.add t) fun _ => True := by
    apply (Number.combine_returns hs.constant ht.constant).bind
    intro k _
    have first : Returns (s.terms.foldlM mergeTerm (k, []))
        fun acc => acc.1 = k ∧ ∀ m ∈ acc.2, m ∈ [] ∨ m.2.HasDouble :=
      foldlM_of_fresh hs.canonical.radicands (fun t ht => Number.zero_add_returns (hs.coefficient t ht))
        fun t _ => List.not_mem_nil
    have fold : Returns ((s.terms ++ t.terms).foldlM mergeTerm (k, [])) fun _ => True := by
      rw [List.foldlM_append]
      apply first.bind
      rintro ⟨k', merged⟩ ⟨_, all⟩
      refine foldlM_of_hasDouble ht.canonical.radicands ht.coefficient fun m hm _ => ?_
      exact (all m hm).resolve_left List.not_mem_nil
    exact fold.bind fun acc _ => .ok trivial
  exact ((add_canonical hs.canonical ht.canonical).and succeeds).mono fun _ h => h.1

/-- An operation on the constant and on each coefficient. -/
theorem mapTerms_returns {f : Number → Except Fault Number} (hs : s.Canonical)
    (coefficient : ∀ t ∈ s.terms, Returns (f t.coefficient) P) (constant : Returns (f s.constant) P)
    (zero_add : ∀ c, P c → Returns (Number.add 0 c) P) :
    Returns (do
      let terms ← s.terms.mapM fun t => do return (⟨← f t.coefficient, t.radicand⟩ : Term)
      let constant ← f s.constant
      ofTerms terms constant) fun s =>
        s.Canonical ∧ ((∀ c, P c → c.isFinite = true) → s.isFinite = true) := by
  have each : ∀ t ∈ s.terms, Returns (do return (⟨← f t.coefficient, t.radicand⟩ : Term) : Except Fault Term)
      fun t' => P t'.coefficient ∧ t'.radicand = t.radicand := by
    intro t ht
    apply (coefficient t ht).bind
    intro c hc
    exact .ok ⟨hc, rfl⟩
  apply (Returns.mapM_keys each).bind
  rintro terms ⟨hterms, radicands⟩
  apply constant.bind
  intro k hk
  have distinct : Radicands (terms.map Term.radicand) := radicands ▸ hs.radicands
  apply (ofTerms_of_distinct distinct (fun t ht => zero_add _ (hterms t ht)) k).mono
  rintro s ⟨canonical, finite⟩
  exact ⟨canonical, fun all => finite (all k hk) all⟩

theorem negate_of_finite (hs : s.Finite) : Returns s.negate Finite := by
  obtain ⟨constant, coefficient⟩ := isFinite_iff.mp hs.isFinite
  have mapped := mapTerms_returns (f := fun a => a.mul (.int (-1))) hs.canonical
    (fun t ht => Number.mul_neg_one_isFinite (coefficient t ht)) (Number.mul_neg_one_isFinite constant)
    (fun c => Number.zero_add_isFinite)
  exact mapped.mono fun s h => ⟨h.1, h.2 fun c hc => hc⟩

theorem scale_real_of_finite (hs : s.Finite) (y : Double) : Returns (s.scale (.real y)) Canonical := by
  have mapped := mapTerms_returns (f := fun a => a.mul (.real y)) hs.canonical
    (fun t ht => Number.combine_real_returns (hs.coefficient t ht) y) (Number.combine_real_returns hs.constant y)
    (fun c => Number.zero_add_returns)
  exact mapped.mono fun s h => h.1

theorem divide_real_of_finite (hs : s.Finite) {y : Double} (hy : Number.doubleIsZero y = false) :
    Returns (s.divide (.real y)) Canonical := by
  have mapped := mapTerms_returns (f := fun a => a.div (.real y)) hs.canonical
    (fun t ht => Number.div_real_returns (hs.coefficient t ht) hy) (Number.div_real_returns hs.constant hy)
    (fun c => Number.zero_add_returns)
  exact mapped.mono fun s h => h.1

/-! ## Numerals and roots -/

theorem ofTerms_nil_of_isFinite {k : Number} (hk : k.isFinite = true) : Returns (ofTerms [] k) Finite :=
  .ok ⟨⟨.nil, List.forall_mem_nil _⟩, isFinite_iff.mpr ⟨isFinite_constant hk, List.forall_mem_nil _⟩⟩

/-- One root, or a whole number, with a finite coefficient. -/
theorem ofTerms_root {c : Int} {r : Nat} (free : Squarefree r) (hc : (Number.int c).isFinite = true) :
    Returns (ofTerms [⟨.int c, .int r⟩] 0) Finite := by
  have positive : 0 < r := Nat.pos_of_ne_zero free.ne_zero
  obtain rfl | large : r = 1 ∨ 2 ≤ r := by omega
  · have sum : ofTerms [⟨.int c, .int 1⟩] 0 = ofTerms [] (.int c) := by
      rw [ofTerms, List.foldlM_cons, mergeTerm_one]
      simp only [Number.zero_add_int]
      rfl
    rw [show ((1 : Nat) : Int) = 1 from rfl, sum]
    exact ofTerms_nil_of_isFinite hc
  · have single : Radicands ([(⟨.int c, .int r⟩ : Term)].map Term.radicand) :=
      ⟨List.forall_mem_singleton.mpr ⟨r, large, free, rfl⟩, List.nodup_singleton _⟩
    have each : ∀ t ∈ [(⟨.int c, .int r⟩ : Term)],
        Returns (Number.add 0 t.coefficient) fun c => c.isFinite = true :=
      List.forall_mem_singleton.mpr (Number.zero_add_isFinite hc)
    apply (ofTerms_of_distinct single each 0).mono
    rintro s ⟨canonical, finite⟩
    exact ⟨canonical, finite rfl fun _ h => h⟩

/-- The coefficient of the root of a number has half of its binary digits at most. -/
theorem natAbs_rootOfNat_lt {n k : Nat} (hn : n ≠ 0) (bounded : n < 2 ^ (k * 2)) :
    (rootOfNat n).1.natAbs < 2 ^ k := by
  obtain ⟨_, hr, square⟩ := rootOfNat_spec hn
  have below : ((rootOfNat n).1.natAbs : Int) ^ 2 ≤ n := by
    rw [Int.natAbs_sq, ← square]
    exact le_mul_of_one_le_right (sq_nonneg _) hr
  have below' : (rootOfNat n).1.natAbs ^ 2 ≤ n := by exact_mod_cast below
  apply lt_of_pow_lt_pow_left₀ 2 (Nat.zero_le _)
  rw [← pow_mul]
  exact below'.trans_lt bounded

/-- The root of a whole double is finite. -/
theorem ofTerms_simplify_of_isFinite {x : Double} {n : Nat} (hx : x.isFinite = true) (hn : x.toReal = n) :
    Returns (do
      let r ← Radical.simplify (.real x)
      ofTerms [⟨r.coefficient, r.radicand⟩] 0) Finite := by
  have whole := Number.isNat_real hx hn
  obtain rfl | zero := eq_or_ne n 0
  · rw [Radical.simplify_zero whole]
    exact ofTerms_root (c := 0) squarefree_one rfl
  · have bounded : n < 2 ^ (512 * 2) := by
      have size := x.abs_toReal_lt
      rw [hn, Nat.abs_cast] at size
      refine Nat.cast_lt.mp (size.trans_eq ?_)
      rw [Nat.cast_pow, Nat.cast_ofNat]
    have coefficient : (rootOfNat n).1.natAbs < 2 ^ 1023 :=
      (natAbs_rootOfNat_lt zero bounded).trans (pow_lt_pow_right₀ one_lt_two (by decide))
    obtain ⟨r, free, hr⟩ := squareFree_rootOfNat zero 0
    rw [Radical.simplify_eq whole zero]
    show Returns (ofTerms [⟨.int (rootOfNat n).1, .int (rootOfNat n).2⟩] 0) _
    rw [show Number.int (rootOfNat n).2 = .int r from hr]
    exact ofTerms_root free (Number.isFinite_int (Double.isFinite_ofInt coefficient))

end Surd.RadicalSum
