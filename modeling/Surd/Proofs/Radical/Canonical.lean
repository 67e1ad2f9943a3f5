import Surd.Proofs.Number.Normalize
import Surd.Proofs.Radical.Decomposition

/-!
# Canonical sums

In a canonical sum the radicands are distinct square-free whole numbers above one and no coefficient is zero. The normal
form of terms with square-free radicands is canonical, whatever the coefficients are, so every operation on canonical
sums ends in a canonical sum, unless it ends because a whole number has no double.
-/

namespace Surd

/-- The radicand of the term is a square-free whole number. -/
def Term.SquareFree (t : Term) : Prop := ∃ r : Nat, Squarefree r ∧ t.radicand = .int r

namespace RadicalSum

/-- Distinct square-free whole numbers above one. -/
structure Radicands (rs : List Number) : Prop where
  squarefree : ∀ a ∈ rs, ∃ r : Nat, 2 ≤ r ∧ Squarefree r ∧ a = .int r
  distinct : rs.Nodup

/-- The radicands are distinct square-free whole numbers above one, and no coefficient is zero. -/
structure Canonical (s : RadicalSum) : Prop where
  radicands : Radicands (s.terms.map Term.radicand)
  coefficient : ∀ t ∈ s.terms, t.coefficient.isZero = false

variable {s t : RadicalSum} {terms : List Term}

theorem Radicands.nil : Radicands [] := ⟨List.forall_mem_nil _, List.nodup_nil⟩

theorem Radicands.squareFree (h : Radicands (terms.map Term.radicand)) : ∀ t ∈ terms, t.SquareFree := by
  intro t ht
  obtain ⟨r, _, free, hr⟩ := h.squarefree t.radicand (List.mem_map_of_mem ht)
  exact ⟨r, free, hr⟩

theorem Canonical.squareFree (h : s.Canonical) : ∀ t ∈ s.terms, t.SquareFree := h.radicands.squareFree

theorem canonical_ofConstant (c : Number) : (ofConstant c).Canonical := ⟨.nil, List.forall_mem_nil _⟩

/-! ## The normal form -/

namespace Merged

/-- The radicands of merged coefficients. -/
def radicands (merged : Merged) : List Number := merged.map fun m => .int m.1

@[simp] theorem radicands_nil : radicands [] = [] := rfl

@[simp] theorem radicands_cons (r : Int) (c : Number) (rest : Merged) :
    radicands ((r, c) :: rest) = .int r :: radicands rest := rfl

theorem radicands_append (merged merged' : Merged) :
    radicands (merged ++ merged') = radicands merged ++ radicands merged' := List.map_append

/-- A coefficient joins those of its radicand or stands at the end with a radicand of its own. -/
theorem add_radicands (merged : Merged) (r : Int) (c : Number) :
    ReturnsUnless .integerTooLarge (merged.add r c) fun m =>
      m.radicands = merged.radicands ∨
        .int r ∉ merged.radicands ∧ m.radicands = merged.radicands ++ [.int r] := by
  induction merged with
  | nil =>
      apply (Number.combine_returnsUnless 0 c).bind
      intro d _
      exact .ok (.inr ⟨List.not_mem_nil, rfl⟩)
  | cons m rest ih =>
      obtain ⟨r', c'⟩ := m
      rw [add]
      split
      · apply (Number.combine_returnsUnless c' c).bind
        intro d _
        exact .ok (.inl rfl)
      · rename_i different
        apply ih.bind
        rintro m (same | ⟨fresh, new⟩)
        · exact .ok (.inl (by rw [radicands_cons, same, radicands_cons]))
        · refine .ok (.inr ⟨?_, by rw [radicands_cons, new, radicands_cons, List.cons_append]⟩)
          rw [radicands_cons, List.mem_cons, not_or]
          exact ⟨fun h => different (Number.int.inj h).symm, fresh⟩

end Merged

/-- A radicand above one is merged; the constant stays. -/
theorem mergeTerm_of_two_le (acc : Number × Merged) (c : Number) {r : Nat} (hr : 2 ≤ r) :
    mergeTerm acc ⟨c, .int r⟩ = acc.2.add r c >>= fun merged => .ok (acc.1, merged) := by
  have positive : decide ((r : Int) = 0) = false := decide_eq_false (by omega)
  have above : (Number.int r).equal 1 = false :=
    (Number.equal_int r 1).trans (decide_eq_false (by omega))
  simp only [mergeTerm, Number.isZero_int, positive, above]
  rfl

theorem mergeTerm_one (acc : Number × Merged) (c : Number) :
    mergeTerm acc ⟨c, .int 1⟩ = acc.1.add c >>= fun k => .ok (k, acc.2) := by
  have one : (Number.int 1).equal 1 = true := Number.equal_int 1 1
  simp only [mergeTerm, Number.isZero_int, one]
  rfl

/-- One more term with a square-free radicand keeps the radicands distinct and square-free. -/
theorem mergeTerm_radicands {acc : Number × Merged} (h : Radicands acc.2.radicands) {t : Term}
    (ht : t.SquareFree) :
    ReturnsUnless .integerTooLarge (mergeTerm acc t) fun acc => Radicands acc.2.radicands := by
  obtain ⟨c, _⟩ := t
  obtain ⟨r, free, rfl⟩ := ht
  have positive : 0 < r := Nat.pos_of_ne_zero free.ne_zero
  obtain rfl | above : r = 1 ∨ 2 ≤ r := by omega
  · rw [show ((1 : Nat) : Int) = 1 from rfl, mergeTerm_one]
    apply (Number.combine_returnsUnless acc.1 c).bind
    intro k _
    exact .ok h
  · rw [mergeTerm_of_two_le acc c above]
    apply (Merged.add_radicands acc.2 r c).bind
    rintro merged (same | ⟨fresh, new⟩)
    · exact .ok (by rwa [same])
    · refine .ok ?_
      rw [new]
      constructor
      · exact List.forall_mem_append.mpr ⟨h.squarefree, List.forall_mem_singleton.mpr ⟨r, above, free, rfl⟩⟩
      · exact List.nodup_append_comm.mp (List.nodup_cons.mpr ⟨fresh, h.distinct⟩)

/-- The terms that are left of merged coefficients. -/
theorem canonical_merged {merged : Merged} (h : Radicands merged.radicands) (k : Number) :
    Canonical ⟨(merged.filter fun m => !m.2.isNegligible).map fun m => ⟨m.2.normalize, .int m.1⟩, k⟩ := by
  have kept : ((merged.filter fun m => !m.2.isNegligible).map fun m =>
      (⟨m.2.normalize, .int m.1⟩ : Term)).map Term.radicand =
        Merged.radicands (merged.filter fun m => !m.2.isNegligible) := by
    rw [List.map_map]
    rfl
  have sublist : (Merged.radicands (merged.filter fun m => !m.2.isNegligible)).Sublist merged.radicands :=
    List.filter_sublist.map _
  constructor
  · rw [kept]
    exact ⟨fun a ha => h.squarefree a (sublist.subset ha), sublist.nodup h.distinct⟩
  · intro t ht
    obtain ⟨m, hm, rfl⟩ := List.mem_map.mp ht
    have large := (List.mem_filter.mp hm).2
    exact Number.isZero_normalize (by simpa using large)

/-- The normal form of terms with square-free radicands is canonical. -/
theorem ofTerms_canonical (h : ∀ t ∈ terms, t.SquareFree) (k : Number) :
    ReturnsUnless .integerTooLarge (ofTerms terms k) Canonical := by
  have fold : ReturnsUnless .integerTooLarge (terms.foldlM mergeTerm (k, []))
      fun acc => Radicands acc.2.radicands := by
    apply ReturnsUnless.foldlM
    · intro t ht acc hacc
      exact mergeTerm_radicands hacc (h t ht)
    · exact .nil
  apply fold.bind
  rintro ⟨k', merged⟩ hmerged
  exact .ok (canonical_merged hmerged _)

/-! ## Sums and multiples -/

theorem add_canonical (hs : s.Canonical) (ht : t.Canonical) :
    ReturnsUnless .integerTooLarge (s.add t) Canonical := by
  apply (Number.combine_returnsUnless s.constant t.constant).bind
  intro k _
  exact ofTerms_canonical (List.forall_mem_append.mpr ⟨hs.squareFree, ht.squareFree⟩) k

/-- Every term times a number keeps its radicand. -/
theorem mapM_mul_squareFree (h : ∀ t ∈ terms, t.SquareFree) (factor : Number) :
    ReturnsUnless .integerTooLarge
      (terms.mapM fun t => do return (⟨← t.coefficient.mul factor, t.radicand⟩ : Term))
      fun terms => ∀ t ∈ terms, t.SquareFree := by
  apply ReturnsUnless.mapM
  intro t ht
  apply (Number.combine_returnsUnless t.coefficient factor).bind
  intro c _
  exact .ok (h t ht)

theorem scale_canonical (hs : s.Canonical) (factor : Number) :
    ReturnsUnless .integerTooLarge (s.scale factor) Canonical := by
  apply (mapM_mul_squareFree hs.squareFree factor).bind
  intro terms hterms
  apply (Number.combine_returnsUnless s.constant factor).bind
  intro k _
  exact ofTerms_canonical hterms k

/-! ## Products -/

theorem squareFree_rootOfNat {n : Nat} (hn : n ≠ 0) (c : Number) :
    Term.SquareFree ⟨c, .int (rootOfNat n).2⟩ := by
  obtain ⟨_, positive, _⟩ := rootOfNat_spec hn
  obtain ⟨r, hr⟩ := Int.eq_ofNat_of_zero_le positive.le
  refine ⟨r, ?_, congrArg Number.int hr⟩
  have free := squarefree_rootOfNat hn
  rw [hr] at free
  exact Int.squarefree_natCast.mp free

/-- The product of square-free radicands leaves a whole number and a square-free radicand. -/
theorem multiplyRadicands_squareFree {m n : Nat} (hm : Squarefree m) (hn : Squarefree n) :
    Returns (multiplyRadicands (.int m) (.int n)) fun p =>
      (∃ c : Int, p.1 = .int c) ∧ Term.SquareFree ⟨p.1, p.2⟩ := by
  rw [multiplyRadicands_of_squarefree hm hn]
  exact .ok ⟨⟨_, rfl⟩, _, squarefree_div_gcd_mul hm hn, rfl⟩

theorem multiplyTerms_squareFree {a b : Term} (ha : a.SquareFree) (hb : b.SquareFree) :
    ReturnsUnless .integerTooLarge (multiplyTerms a b) Term.SquareFree := by
  obtain ⟨c, _⟩ := a
  obtain ⟨d, _⟩ := b
  obtain ⟨m, hm, rfl⟩ := ha
  obtain ⟨n, hn, rfl⟩ := hb
  have product : ReturnsUnless .integerTooLarge (multiplyRadicands (.int m) (.int n)) _ :=
    .inl (multiplyRadicands_squareFree hm hn)
  apply product.bind
  rintro ⟨e, r⟩ ⟨_, r', free, hr⟩
  apply (Number.combine_returnsUnless c d).bind
  intro outer _
  apply (Number.combine_returnsUnless outer e).bind
  intro inner _
  exact .ok ⟨r', free, hr⟩

theorem termsTimes_squareFree (h : ∀ t ∈ terms, t.SquareFree) (k : Number) :
    ReturnsUnless .integerTooLarge (termsTimes terms k) fun terms => ∀ t ∈ terms, t.SquareFree := by
  rw [termsTimes]
  split
  · exact .ok (List.forall_mem_nil _)
  · exact mapM_mul_squareFree h k

theorem multiply_canonical (hs : s.Canonical) (ht : t.Canonical) :
    ReturnsUnless .integerTooLarge (s.multiply t) Canonical := by
  apply (Number.combine_returnsUnless s.constant t.constant).bind
  intro k _
  have row : ∀ a ∈ s.terms, ReturnsUnless .integerTooLarge (t.terms.mapM (multiplyTerms a))
      fun terms => ∀ t ∈ terms, t.SquareFree := by
    intro a ha
    apply ReturnsUnless.mapM
    intro b hb
    exact multiplyTerms_squareFree (hs.squareFree a ha) (ht.squareFree b hb)
  apply (ReturnsUnless.mapM row).bind
  intro crossed hcrossed
  apply (termsTimes_squareFree hs.squareFree t.constant).bind
  intro left hleft
  apply (termsTimes_squareFree ht.squareFree s.constant).bind
  intro right hright
  refine ofTerms_canonical (List.forall_mem_append.mpr ⟨List.forall_mem_append.mpr ⟨?_, hleft⟩, hright⟩) k
  intro a ha
  obtain ⟨terms, hterms, ha⟩ := List.mem_flatten.mp ha
  exact hcrossed terms hterms a ha

/-! ## Powers -/

theorem powerFrom_canonical (hs : s.Canonical) (ht : t.Canonical) (n : Nat) :
    ReturnsUnless .integerTooLarge (powerFrom s t n) Canonical := by
  induction n using Nat.strong_induction_on generalizing s t with
  | h n ih =>
      by_cases hn : n = 0
      · rw [hn, powerFrom_zero]
        exact .ok hs
      · rw [powerFrom_of_ne_zero hn]
        have digit : ReturnsUnless .integerTooLarge (if n % 2 = 1 then s.multiply t else .ok s) Canonical := by
          split
          · exact multiply_canonical hs ht
          · exact .ok hs
        apply digit.bind
        intro r hr
        split
        · exact .ok hr
        · apply (multiply_canonical ht ht).bind
          intro base hbase
          exact ih (n / 2) (Nat.div_lt_self (Nat.pos_of_ne_zero hn) one_lt_two) hr hbase

theorem power_canonical (hs : s.Canonical) (n : Nat) :
    ReturnsUnless .integerTooLarge (s.power (.int n)) Canonical := by
  rw [power_eq]
  exact powerFrom_canonical (canonical_ofConstant 1) hs n

end RadicalSum

end Surd
