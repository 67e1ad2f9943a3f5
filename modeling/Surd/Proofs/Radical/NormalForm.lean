import Surd.Proofs.Number.Normalize
import Surd.Proofs.Radical.Finite

/-!
# The normal form of a list of terms

`RadicalSum.ofTerms` adds up the coefficients of each radicand from the left, in the order in which the radicands first
appear, leaves out what is negligible and normalises the rest (`ofTerms_collects`). A coefficient that was kept this way
is neither negligible nor changed by another normalisation, so a normal form is its own (`ofTerms_normalForm`). A single
number is moved by less than the tolerance for its size, which may be more than the tolerance (`ofTerms_denoises`).
-/

namespace Surd.RadicalSum

variable {terms : List Term} {k k' c : Number} {acc acc' : Number × Merged} {merged merged' : Merged} {r : Int}
  {s : RadicalSum}

/-! ## Coefficients by radicand -/

/-- The coefficients of a radicand, in their order. -/
def coefficientsOf (r : Int) (terms : List Term) : List Number :=
  (terms.filter fun t => t.radicand = .int r).map Term.coefficient

/-- Numbers added to a first one from the left. -/
def total (k : Number) (cs : List Number) : Except Fault Number := cs.foldlM Number.add k

/-- The radicands that keep their root are all but zero and one. -/
def keepsRoot (a : Number) : Bool := !a.isZero && !a.equal 1

/-- The radicands that keep their root, in the order in which they first appear. -/
def rootsOf (terms : List Term) : List Number := ((terms.map Term.radicand).filter keepsRoot).eraseDups

@[simp] theorem keepsRoot_int (r : Int) : keepsRoot (.int r) = decide (r ≠ 0 ∧ r ≠ 1) := by
  rw [keepsRoot, Number.isZero_int, show (1 : Number) = .int 1 from rfl, Number.equal_int]
  by_cases zero : r = 0 <;> by_cases one : r = 1 <;> simp [zero, one]

theorem keepsRoot_of_two_le {r : Nat} (hr : 2 ≤ r) : keepsRoot (.int r) = true := by
  rw [keepsRoot_int, decide_eq_true_eq]
  omega

theorem total_concat (k : Number) (cs : List Number) (c : Number) :
    total k (cs ++ [c]) = total k cs >>= fun sum => sum.add c := by
  rw [total, List.foldlM_append]
  refine congrArg (total k cs >>= ·) (funext fun sum => ?_)
  rw [List.foldlM_cons]
  exact bind_pure _

theorem coefficientsOf_concat_self (r : Int) (terms : List Term) (c : Number) :
    coefficientsOf r (terms ++ [⟨c, .int r⟩]) = coefficientsOf r terms ++ [c] := by
  simp [coefficientsOf]

theorem coefficientsOf_concat_of_ne {q : Int} (h : r ≠ q) (terms : List Term) (c : Number) :
    coefficientsOf r (terms ++ [⟨c, .int q⟩]) = coefficientsOf r terms := by
  simp [coefficientsOf, h.symm]

theorem coefficientsOf_eq_nil (h : .int r ∉ terms.map Term.radicand) : coefficientsOf r terms = [] := by
  rw [coefficientsOf, List.map_eq_nil_iff, List.filter_eq_nil_iff]
  intro t ht same
  exact h (List.mem_map.mpr ⟨t, ht, of_decide_eq_true same⟩)

theorem mem_rootsOf {a : Number} : a ∈ rootsOf terms ↔ a ∈ terms.map Term.radicand ∧ keepsRoot a = true := by
  rw [rootsOf, List.mem_eraseDups, List.mem_filter]

theorem exists_of_mem_rootsOf (radicands : ∀ t ∈ terms, ∃ r : Nat, t.radicand = .int r) {a : Number}
    (ha : a ∈ rootsOf terms) : ∃ r : Nat, 2 ≤ r ∧ a = .int r := by
  obtain ⟨there, kept⟩ := mem_rootsOf.mp ha
  obtain ⟨t, ht, rfl⟩ := List.mem_map.mp there
  obtain ⟨r, hr⟩ := radicands t ht
  rw [hr, keepsRoot_int, decide_eq_true_eq] at kept
  exact ⟨r, by omega, hr⟩

theorem nodup_rootsOf (terms : List Term) : (rootsOf terms).Nodup := nodup_eraseDups _

theorem rootsOf_concat_of_not (t : Term) (h : keepsRoot t.radicand = false) :
    rootsOf (terms ++ [t]) = rootsOf terms := by
  simp [rootsOf, h]

theorem rootsOf_concat (t : Term) (h : keepsRoot t.radicand = true) :
    rootsOf (terms ++ [t]) = if t.radicand ∈ rootsOf terms then rootsOf terms else rootsOf terms ++ [t.radicand] := by
  simp only [rootsOf, List.map_append, List.map_singleton, List.filter_append, List.filter_singleton, h, cond_true,
    eraseDups_concat, List.mem_eraseDups]

/-! ## Merging -/

/-- A coefficient stands at the end with a radicand of its own, or it is added to that of its radicand. -/
theorem Merged.exists_of_add_eq_ok (h : merged.add r c = .ok merged') :
    (.int r ∉ merged.radicands ∧ ∃ d, Number.add 0 c = .ok d ∧ merged' = merged ++ [(r, d)]) ∨
      ∃ before old after d, merged = before ++ (r, old) :: after ∧ old.add c = .ok d ∧
        merged' = before ++ (r, d) :: after := by
  induction merged generalizing merged' with
  | nil =>
      obtain ⟨d, hd, same⟩ := exists_of_bind_eq_ok h
      exact .inl ⟨List.not_mem_nil, d, hd, (Except.ok.inj same).symm⟩
  | cons m rest ih =>
      obtain ⟨q, old⟩ := m
      rw [add] at h
      split at h
      · rename_i same
        obtain ⟨d, hd, result⟩ := exists_of_bind_eq_ok h
        exact .inr ⟨[], old, rest, d, by rw [same]; rfl, hd, by rw [← Except.ok.inj result, same]; rfl⟩
      · rename_i different
        obtain ⟨rest', added, result⟩ := exists_of_bind_eq_ok h
        obtain rfl := Except.ok.inj result
        obtain ⟨fresh, d, hd, rfl⟩ | ⟨before, old', after, d, rfl, hd, rfl⟩ := ih added
        · refine .inl ⟨?_, d, hd, rfl⟩
          rw [radicands_cons, List.mem_cons, not_or]
          exact ⟨fun same => different (Number.int.inj same).symm, fresh⟩
        · exact .inr ⟨(q, old) :: before, old', after, d, rfl, hd, rfl⟩

/-- What is gathered of terms: the constant with the coefficients of radicand one, and for each radicand that keeps its
root the sum of its coefficients, in the order in which these radicands first appear. -/
structure Gathered (terms : List Term) (k : Number) (acc : Number × Merged) : Prop where
  constant : total k (coefficientsOf 1 terms) = .ok acc.1
  radicands : acc.2.radicands = rootsOf terms
  sums : ∀ m ∈ acc.2, total 0 (coefficientsOf m.1 terms) = .ok m.2

namespace Gathered

theorem nil (k : Number) : Gathered [] k (k, []) := ⟨rfl, rfl, List.forall_mem_nil _⟩

theorem mem_rootsOf (h : Gathered terms k acc) {m : Int × Number} (hm : m ∈ acc.2) : .int m.1 ∈ rootsOf terms :=
  h.radicands ▸ List.mem_map_of_mem hm

theorem ne (h : Gathered terms k acc) {m : Int × Number} (hm : m ∈ acc.2) : m.1 ≠ 0 ∧ m.1 ≠ 1 := by
  have kept := (RadicalSum.mem_rootsOf.mp (h.mem_rootsOf hm)).2
  rwa [keepsRoot_int, decide_eq_true_eq] at kept

/-- One more term leaves the sums of the other radicands as they are. -/
theorem sum_of_ne (h : Gathered terms k acc) {q : Int} (c : Number) {m : Int × Number} (hm : m ∈ acc.2)
    (other : m.1 ≠ q) : total 0 (coefficientsOf m.1 (terms ++ [⟨c, .int q⟩])) = .ok m.2 := by
  rw [coefficientsOf_concat_of_ne other]
  exact h.sums m hm

theorem constant_of_ne (h : Gathered terms k acc) {q : Int} (c : Number) (other : 1 ≠ q) :
    total k (coefficientsOf 1 (terms ++ [⟨c, .int q⟩])) = .ok acc.1 := by
  rw [coefficientsOf_concat_of_ne other]
  exact h.constant

/-- The first coefficient of a radicand. -/
theorem concat (h : Gathered terms k acc) {r : Nat} (hr : 2 ≤ r) (fresh : .int r ∉ acc.2.radicands) {d : Number}
    (hd : Number.add 0 c = .ok d) : Gathered (terms ++ [⟨c, .int r⟩]) k (acc.1, acc.2 ++ [((r : Int), d)]) := by
  have first : .int r ∉ rootsOf terms := h.radicands ▸ fresh
  refine ⟨h.constant_of_ne c (by omega), ?_, ?_⟩
  · rw [rootsOf_concat _ (keepsRoot_of_two_le hr), if_neg first, Merged.radicands_append, h.radicands]
    rfl
  · refine List.forall_mem_append.mpr ⟨fun m hm => ?_, List.forall_mem_singleton.mpr ?_⟩
    · refine h.sum_of_ne c hm fun same => fresh ?_
      exact List.mem_map.mpr ⟨m, hm, congrArg Number.int same⟩
    · have none : coefficientsOf r terms = [] := coefficientsOf_eq_nil fun there =>
        first (RadicalSum.mem_rootsOf.mpr ⟨there, keepsRoot_of_two_le hr⟩)
      rw [coefficientsOf_concat_self, none, total_concat]
      exact hd

/-- One more coefficient of a radicand. -/
theorem update {r : Nat} {before after : Merged} {old d : Number}
    (h : Gathered terms k (k', before ++ ((r : Int), old) :: after)) (hr : 2 ≤ r) (hd : old.add c = .ok d) :
    Gathered (terms ++ [⟨c, .int r⟩]) k (k', before ++ ((r : Int), d) :: after) := by
  have order := h.radicands
  rw [Merged.radicands_append, Merged.radicands_cons] at order
  have there : .int r ∈ rootsOf terms := order ▸ List.mem_append_right _ List.mem_cons_self
  -- The radicands are distinct, so the coefficients before and after it belong to others.
  have distinct := order ▸ nodup_rootsOf terms
  rw [List.nodup_middle, List.nodup_cons, List.mem_append, not_or] at distinct
  obtain ⟨⟨fresh, fresh'⟩, _⟩ := distinct
  refine ⟨h.constant_of_ne c (by omega), ?_, ?_⟩
  · rw [rootsOf_concat _ (keepsRoot_of_two_le hr), if_pos there, Merged.radicands_append, Merged.radicands_cons, order]
  · refine List.forall_mem_append.mpr ⟨fun m hm => ?_, List.forall_mem_cons.mpr ⟨?_, fun m hm => ?_⟩⟩
    · refine h.sum_of_ne c (List.mem_append_left _ hm) fun same => fresh ?_
      exact List.mem_map.mpr ⟨m, hm, congrArg Number.int same⟩
    · rw [coefficientsOf_concat_self, total_concat, h.sums (r, old) (List.mem_append_right _ List.mem_cons_self)]
      exact hd
    · refine h.sum_of_ne c (List.mem_append_right _ (List.mem_cons_of_mem _ hm)) fun same => fresh' ?_
      exact List.mem_map.mpr ⟨m, hm, congrArg Number.int same⟩

/-- One more term. -/
theorem step (h : Gathered terms k acc) {r : Nat} (merged : mergeTerm acc ⟨c, .int r⟩ = .ok acc') :
    Gathered (terms ++ [⟨c, .int r⟩]) k acc' := by
  obtain rfl | rfl | large : r = 0 ∨ r = 1 ∨ 2 ≤ r := by omega
  · obtain rfl : acc = acc' := Except.ok.inj merged
    refine ⟨h.constant_of_ne c (by decide), ?_, fun m hm => h.sum_of_ne c hm (h.ne hm).1⟩
    rw [rootsOf_concat_of_not _ rfl]
    exact h.radicands
  · rw [show ((1 : Nat) : Int) = 1 from rfl] at merged ⊢
    rw [mergeTerm_one] at merged
    obtain ⟨sum, added, result⟩ := exists_of_bind_eq_ok merged
    obtain rfl := Except.ok.inj result
    refine ⟨?_, ?_, fun m hm => h.sum_of_ne c hm (h.ne hm).2⟩
    · rw [coefficientsOf_concat_self, total_concat, h.constant]
      exact added
    · rw [rootsOf_concat_of_not _ rfl]
      exact h.radicands
  · rw [mergeTerm_of_two_le acc c large] at merged
    obtain ⟨merged', added, result⟩ := exists_of_bind_eq_ok merged
    obtain rfl := Except.ok.inj result
    obtain ⟨k', coefficients⟩ := acc
    obtain ⟨fresh, d, hd, rfl⟩ | ⟨before, old, after, d, rfl, hd, rfl⟩ := Merged.exists_of_add_eq_ok added
    · exact h.concat large fresh hd
    · exact h.update large hd

/-- A whole list of terms. -/
theorem of_foldlM (radicands : ∀ t ∈ terms, ∃ r : Nat, t.radicand = .int r)
    (h : terms.foldlM mergeTerm (k, []) = .ok acc) : Gathered terms k acc := by
  induction terms using List.reverseRecOn generalizing acc with
  | nil =>
      obtain rfl := Except.ok.inj h
      exact nil k
  | append_singleton terms t ih =>
      obtain ⟨before, last⟩ := List.forall_mem_append.mp radicands
      obtain ⟨c, _⟩ := t
      obtain ⟨r, rfl⟩ := List.forall_mem_singleton.mp last
      rw [List.foldlM_append] at h
      obtain ⟨between, first, second⟩ := exists_of_bind_eq_ok h
      rw [List.foldlM_cons] at second
      obtain ⟨acc', merged, result⟩ := exists_of_bind_eq_ok second
      obtain rfl := Except.ok.inj result
      exact (ih before first).step merged

end Gathered

/-! ## The result -/

/-- A constant in the result: zero if it is negligible. -/
def settle (k : Number) : Number := if k.isNegligible then 0 else k.normalize

/-- How a sum is made of terms and a constant: each radicand that keeps its root stands with the normalised sum of its
coefficients, unless that sum is negligible, and the constant with the coefficients of radicand one is treated alike. -/
structure Collects (terms : List Term) (k : Number) (s : RadicalSum) : Prop where
  order : (s.terms.map Term.radicand).Sublist (rootsOf terms)
  kept : ∀ t ∈ s.terms, ∃ r sum, t.radicand = .int r ∧ total 0 (coefficientsOf r terms) = .ok sum ∧
    sum.isNegligible = false ∧ t.coefficient = sum.normalize
  dropped : ∀ r, .int r ∈ rootsOf terms → .int r ∉ s.terms.map Term.radicand →
    ∃ sum, total 0 (coefficientsOf r terms) = .ok sum ∧ sum.isNegligible = true
  constant : ∃ sum, total k (coefficientsOf 1 terms) = .ok sum ∧
    s.constant = settle sum

/-- The terms of merged coefficients. -/
def Merged.toTerms (merged : Merged) : List Term := merged.map fun m => ⟨m.2, .int m.1⟩

theorem Merged.radicand_toTerms (merged : Merged) : merged.toTerms.map Term.radicand = merged.radicands := by
  rw [toTerms, List.map_map]
  rfl

/-- The merged coefficients that are kept, normalised. -/
def Merged.kept (merged : Merged) : Merged :=
  (merged.filter fun m => !m.2.isNegligible).map fun m => (m.1, m.2.normalize)

theorem Merged.mem_kept {m : Int × Number} :
    m ∈ merged.kept ↔ ∃ sum, (m.1, sum) ∈ merged ∧ sum.isNegligible = false ∧ m.2 = sum.normalize := by
  rw [kept, List.mem_map]
  constructor
  · rintro ⟨⟨q, sum⟩, hm, rfl⟩
    obtain ⟨there, large⟩ := List.mem_filter.mp hm
    exact ⟨sum, there, by simpa using large, rfl⟩
  · rintro ⟨sum, there, large, same⟩
    exact ⟨(m.1, sum), List.mem_filter.mpr ⟨there, by simpa using large⟩, by rw [← same]⟩

theorem Merged.kept_of_isNegligible (r : Int) (h : c.isNegligible = true) : Merged.kept [(r, c)] = [] := by
  rw [kept, List.filter_cons_of_neg (by simp [h]), List.filter_nil, List.map_nil]

theorem Merged.kept_of_not (r : Int) (h : c.isNegligible = false) : Merged.kept [(r, c)] = [(r, c.normalize)] := by
  rw [kept, List.filter_cons_of_pos (by simp [h]), List.filter_nil, List.map_singleton]

theorem Merged.radicands_kept (merged : Merged) : merged.kept.radicands.Sublist merged.radicands := by
  rw [kept, radicands, List.map_map]
  exact List.filter_sublist.map _

theorem ofTerms_eq_ok_iff : ofTerms terms k = .ok s ↔ ∃ acc, terms.foldlM mergeTerm (k, []) = .ok acc ∧
    s = ⟨acc.2.kept.toTerms, settle acc.1⟩ := by
  have shape (merged : Merged) : ((merged.filter fun m => !m.2.isNegligible).map fun m =>
      (⟨m.2.normalize, .int m.1⟩ : Term)) = merged.kept.toTerms := by
    rw [Merged.toTerms, Merged.kept, List.map_map]
    rfl
  constructor
  · intro h
    obtain ⟨acc, gathered, result⟩ := exists_of_bind_eq_ok h
    exact ⟨acc, gathered, by rw [← Except.ok.inj result, shape]; rfl⟩
  · rintro ⟨acc, gathered, rfl⟩
    rw [ofTerms, gathered, ok_bind, ← shape]
    rfl

/-- The normal form of terms whose radicands are natural numbers. -/
theorem ofTerms_collects (radicands : ∀ t ∈ terms, ∃ r : Nat, t.radicand = .int r) (h : ofTerms terms k = .ok s) :
    Collects terms k s := by
  obtain ⟨acc, fold, rfl⟩ := ofTerms_eq_ok_iff.mp h
  have gathered := Gathered.of_foldlM radicands fold
  constructor
  · rw [Merged.radicand_toTerms, ← gathered.radicands]
    exact acc.2.radicands_kept
  · intro t ht
    obtain ⟨m, hm, rfl⟩ := List.mem_map.mp ht
    obtain ⟨sum, there, large, same⟩ := Merged.mem_kept.mp hm
    exact ⟨m.1, sum, rfl, gathered.sums _ there, large, same⟩
  · intro r hr absent
    rw [← gathered.radicands] at hr
    obtain ⟨⟨q, sum⟩, there, same⟩ := List.mem_map.mp hr
    obtain rfl := Number.int.inj same
    refine ⟨sum, gathered.sums _ there, ?_⟩
    by_contra large
    rw [Merged.radicand_toTerms] at absent
    refine absent (List.mem_map.mpr ⟨(q, sum.normalize), ?_, rfl⟩)
    exact Merged.mem_kept.mpr ⟨sum, there, Bool.eq_false_iff.mpr large, rfl⟩
  · exact ⟨acc.1, gathered.constant, rfl⟩

/-! ## Normal forms are their own -/

/-- Distinct radicands above one, and no coefficient that is negligible, nor a constant other than zero. -/
structure NormalForm (s : RadicalSum) : Prop where
  distinct : (s.terms.map Term.radicand).Nodup
  radicand : ∀ t ∈ s.terms, ∃ r : Nat, 2 ≤ r ∧ t.radicand = .int r
  coefficient : ∀ t ∈ s.terms, Number.tolerance.toReal ≤ |t.coefficient.toReal|
  constant : s.constant = 0 ∨ Number.tolerance.toReal ≤ |s.constant.toReal|

/-- Coefficients that zero is added to without a change are merged as they stand, if their radicands are distinct. -/
theorem foldlM_of_distinct {ms : Merged} (distinct : (merged ++ ms).radicands.Nodup)
    (root : ∀ m ∈ ms, ∃ r : Nat, 2 ≤ r ∧ m.1 = r) (neutral : ∀ m ∈ ms, Number.add 0 m.2 = .ok m.2) :
    ms.toTerms.foldlM mergeTerm (k, merged) = .ok (k, merged ++ ms) := by
  induction ms generalizing merged with
  | nil => rw [List.append_nil]; rfl
  | cons m rest ih =>
      obtain ⟨_, c⟩ := m
      obtain ⟨⟨r, large, rfl⟩, rest_root⟩ := List.forall_mem_cons.mp root
      obtain ⟨first, neutral⟩ := List.forall_mem_cons.mp neutral
      have fresh : .int r ∉ merged.radicands := by
        rw [Merged.radicands_append, Merged.radicands_cons, List.nodup_middle, List.nodup_cons] at distinct
        exact fun there => distinct.1 (List.mem_append_left _ there)
      obtain ⟨_, added, _, rfl, rfl⟩ := Merged.add_of_fresh (P := (c = ·)) fresh ⟨_, first, rfl⟩
      rw [Merged.toTerms, List.map_cons, List.foldlM_cons, mergeTerm_of_two_le _ _ large, added]
      show (Merged.toTerms rest).foldlM mergeTerm (k, merged ++ [((r : Int), c)]) = _
      rw [List.append_cons] at distinct
      rw [ih distinct rest_root neutral, ← List.append_cons]

theorem Merged.kept_kept (merged : Merged) : merged.kept.kept = merged.kept := by
  have large : merged.kept.filter (fun m => !m.2.isNegligible) = merged.kept := by
    rw [List.filter_eq_self]
    intro m hm
    obtain ⟨sum, _, large, same⟩ := mem_kept.mp hm
    rw [same, Number.isNegligible_normalize large, Bool.not_false]
  have whole : ∀ m ∈ merged.kept, (m.1, m.2.normalize) = m := by
    intro m hm
    obtain ⟨sum, _, _, same⟩ := mem_kept.mp hm
    rw [same, Number.normalize_normalize, ← same]
  rw [kept, large, List.map_congr_left whole, List.map_id']

theorem settle_of_isNegligible (h : k.isNegligible = true) : settle k = 0 := if_pos h

theorem settle_of_not (h : k.isNegligible = false) : settle k = k.normalize :=
  if_neg (Bool.eq_false_iff.mp h)

theorem settle_int (n : ℤ) : settle (.int n) = .int n := by
  rw [settle, Number.isNegligible_int]
  split
  · rename_i zero
    rw [of_decide_eq_true zero]
    rfl
  · rfl

theorem settle_real_cases (x : Double) : settle (.real x) = .real x ∨ ∃ n, settle (.real x) = .int n := by
  cases small : (Number.real x).isNegligible with
  | true => exact .inr ⟨0, settle_of_isNegligible small⟩
  | false =>
      rw [settle_of_not small]
      obtain same | ⟨n, whole, _⟩ := Number.normalize_real_cases x
      · exact .inl same
      · exact .inr ⟨n, whole⟩

theorem settle_settle (k : Number) : settle (settle k) = settle k := by
  cases small : k.isNegligible with
  | true =>
      rw [settle_of_isNegligible small]
      rfl
  | false =>
      rw [settle_of_not small, settle_of_not (Number.isNegligible_normalize small), Number.normalize_normalize]

/-- What was kept is kept as it is. -/
theorem ofTerms_kept (distinct : merged.radicands.Nodup) (root : ∀ m ∈ merged, ∃ r : Nat, 2 ≤ r ∧ m.1 = r)
    (k : Number) : ofTerms merged.kept.toTerms (settle k) = .ok ⟨merged.kept.toTerms, settle k⟩ := by
  have fold : merged.kept.toTerms.foldlM mergeTerm (settle k, []) = .ok (settle k, [] ++ merged.kept) := by
    apply foldlM_of_distinct
    · exact merged.radicands_kept.nodup distinct
    · intro m hm
      obtain ⟨sum, there, _⟩ := Merged.mem_kept.mp hm
      exact root (m.1, sum) there
    · intro m hm
      obtain ⟨sum, _, large, same⟩ := Merged.mem_kept.mp hm
      rw [same]
      exact Number.zero_add_of_isNegligible (Number.isNegligible_normalize large)
  refine ofTerms_eq_ok_iff.mpr ⟨_, fold, ?_⟩
  rw [List.nil_append, Merged.kept_kept, settle_settle]

/-- **The normal form.** Where the numbers of a result are finite, its radicands are distinct, none is zero or one and
they stand in the order in which they first appear; no coefficient is below the tolerance, nor is a constant other than
zero; and the result is its own normal form, with whole numbers and doubles kept apart. -/
theorem ofTerms_normalForm (radicands : ∀ t ∈ terms, ∃ r : Nat, t.radicand = .int r) (h : ofTerms terms k = .ok s)
    (finite : s.constant.Bounded ∧ ∀ t ∈ s.terms, t.coefficient.Bounded) :
    s.NormalForm ∧ (s.terms.map Term.radicand).Sublist (rootsOf terms) ∧ ofTerms s.terms s.constant = .ok s := by
  have collected := ofTerms_collects radicands h
  have again : ofTerms s.terms s.constant = .ok s := by
    obtain ⟨acc, fold, rfl⟩ := ofTerms_eq_ok_iff.mp h
    have gathered := Gathered.of_foldlM radicands fold
    apply ofTerms_kept
    · exact gathered.radicands ▸ nodup_rootsOf terms
    · intro m hm
      obtain ⟨r, large, same⟩ := exists_of_mem_rootsOf radicands (gathered.mem_rootsOf hm)
      exact ⟨r, large, Number.int.inj same⟩
  refine ⟨⟨?_, fun t ht => ?_, fun t ht => ?_, ?_⟩, collected.order, again⟩
  · exact collected.order.nodup (nodup_rootsOf terms)
  · exact exists_of_mem_rootsOf radicands (collected.order.subset (List.mem_map_of_mem ht))
  · obtain ⟨r, sum, _, _, large, same⟩ := collected.kept t ht
    exact Number.tolerance_le_abs (finite.2 t ht) (same ▸ Number.isNegligible_normalize large)
  · obtain ⟨sum, _, same⟩ := collected.constant
    cases small : sum.isNegligible with
    | true => exact .inl (same.trans (settle_of_isNegligible small))
    | false =>
        rw [settle_of_not small] at same
        exact .inr (Number.tolerance_le_abs finite.1 (same ▸ Number.isNegligible_normalize small))

/-- Roots of three from different sides, roots of two that cancel, and a half that a whole number is added to. -/
theorem ofTerms_normalForm_mixed :
    ofTerms [⟨.real (Decimal.toDouble ⟨false, 20000000000001, -13⟩), .int 3⟩, ⟨.int (-3), .int 2⟩, ⟨.int 1, .int 1⟩,
        ⟨.int 1, .int 3⟩, ⟨.int 7, .int 0⟩, ⟨.int 3, .int 2⟩] (.real (Decimal.toDouble ⟨false, 5, -1⟩)) =
      .ok ⟨[⟨.int 3, .int 3⟩], .real (Decimal.toDouble ⟨false, 15, -1⟩)⟩ ∧
    NormalForm ⟨[⟨.int 3, .int 3⟩], .real (Decimal.toDouble ⟨false, 15, -1⟩)⟩ ∧
    ofTerms [⟨.int 3, .int 3⟩] (.real (Decimal.toDouble ⟨false, 15, -1⟩)) =
      .ok ⟨[⟨.int 3, .int 3⟩], .real (Decimal.toDouble ⟨false, 15, -1⟩)⟩ := by
  have computed : ofTerms [⟨.real (Decimal.toDouble ⟨false, 20000000000001, -13⟩), .int 3⟩, ⟨.int (-3), .int 2⟩,
      ⟨.int 1, .int 1⟩, ⟨.int 1, .int 3⟩, ⟨.int 7, .int 0⟩, ⟨.int 3, .int 2⟩]
      (.real (Decimal.toDouble ⟨false, 5, -1⟩)) =
        .ok ⟨[⟨.int 3, .int 3⟩], .real (Decimal.toDouble ⟨false, 15, -1⟩)⟩ := by decide +kernel
  have finite : (Decimal.toDouble ⟨false, 15, -1⟩).isFinite = true := by decide +kernel
  obtain ⟨normal, _, again⟩ := ofTerms_normalForm (by
    simp only [List.forall_mem_cons]
    exact ⟨⟨3, rfl⟩, ⟨2, rfl⟩, ⟨1, rfl⟩, ⟨3, rfl⟩, ⟨0, rfl⟩, ⟨2, rfl⟩, List.forall_mem_nil _⟩)
    computed ⟨finite, List.forall_mem_singleton.mpr trivial⟩
  exact ⟨computed, normal, again⟩

/-! ## One number -/

theorem denoises_settle {x : Double} (hx : x.isFinite = true) : (settle (.real x)).Denoises x := by
  cases small : (Number.real x).isNegligible with
  | true =>
      rw [settle_of_isNegligible small]
      refine ⟨.inr ⟨0, by decide, rfl⟩, lt_of_lt_of_le ?_ (Number.tolerance_le_mul_max _)⟩
      show |((0 : Int) : ℝ) - x.toReal| < _
      rw [Int.cast_zero, zero_sub, abs_neg]
      exact (Number.isNegligible_real hx).mp small
  | false =>
      rw [settle_of_not small]
      exact Number.denoises_normalize hx

/-- **What the normal form takes for noise.** A finite coefficient is left out only if it is below the tolerance, and
else it is the coefficient of the result, or a whole number in its place that is closer than the tolerance for its size;
a finite constant is taken in the same way. -/
theorem ofTerms_denoises {x : Double} (hx : x.isFinite = true) {r : Nat} (hr : 2 ≤ r) :
    Returns (ofTerms [⟨.real x, .int r⟩] 0) (fun s => s.constant = 0 ∧
      (s.terms = [] ∧ |x.toReal| < Number.tolerance.toReal ∨ ∃ c, s.terms = [⟨c, .int r⟩] ∧ c.Denoises x)) ∧
    Returns (ofTerms [] (.real x)) fun s => s.terms = [] ∧ s.constant.Denoises x := by
  obtain ⟨hzero, zero⟩ := Double.ofInt_exact (n := 0) (by decide)
  obtain ⟨hsum, sum⟩ := Double.add_of_eq hzero hx hx (by rw [zero, Int.cast_zero, zero_add])
  have fold : [(⟨.real x, .int r⟩ : Term)].foldlM mergeTerm (0, []) =
      .ok (0, [((r : Int), .real ((Double.ofInt 0).add x))]) := by
    rw [List.foldlM_cons, mergeTerm_of_two_le _ _ hr]
    rfl
  refine ⟨⟨_, ofTerms_eq_ok_iff.mpr ⟨_, fold, rfl⟩, rfl, ?_⟩, ⟨_, rfl, rfl, denoises_settle hx⟩⟩
  cases small : (Number.real ((Double.ofInt 0).add x)).isNegligible with
  | true =>
      have below := (Number.isNegligible_real hsum).mp small
      rw [sum] at below
      exact .inl ⟨by rw [Merged.kept_of_isNegligible r small]; rfl, below⟩
  | false =>
      have nonzero : x.toReal ≠ 0 := by
        intro none
        rw [← Bool.not_eq_true, Number.isNegligible_real hsum, sum, none, abs_zero] at small
        exact small Number.tolerance_pos
      have same : (Double.ofInt 0).add x = x := Double.ofInt_zero_add fun _ => nonzero
      rw [same] at small ⊢
      refine .inr ⟨_, ?_, Number.denoises_normalize hx⟩
      rw [Merged.kept_of_not r small]
      rfl

theorem ofTerms_denoises_noise : ∃ c, ofTerms [⟨.real (Decimal.toDouble ⟨false, 20000000000001, -13⟩), .int 3⟩] 0 =
    .ok ⟨[⟨c, .int 3⟩], 0⟩ ∧ c.Denoises (Decimal.toDouble ⟨false, 20000000000001, -13⟩) := by
  have finite : (Decimal.toDouble ⟨false, 20000000000001, -13⟩).isFinite = true := by decide +kernel
  have large : ¬|(Decimal.toDouble ⟨false, 20000000000001, -13⟩).toReal| < Number.tolerance.toReal := by
    rw [← Number.isNegligible_real finite]
    decide +kernel
  obtain ⟨⟨⟨terms, _⟩, computed, rfl, ⟨_, small⟩ | ⟨c, rfl, near⟩⟩, _⟩ := ofTerms_denoises finite (r := 3) (by decide)
  · exact absurd small large
  · exact ⟨c, computed, near⟩

/-- The tolerance grows with the size: a coefficient of a thousand is moved by more than the tolerance itself. -/
theorem ofTerms_moves : ¬∀ (x : Double) (r : Nat), x.isFinite = true → 2 ≤ r →
    Returns (ofTerms [⟨.real x, .int r⟩] 0) (fun s => s.terms = [] ∧ |x.toReal| < 1 / 10 ^ 12 ∨
      ∃ c, s.terms = [⟨c, .int r⟩] ∧ |c.toReal - x.toReal| < 1 / 10 ^ 12) ∧
    Returns (ofTerms [] (.real x)) fun s => |s.constant.toReal - x.toReal| < 1 / 10 ^ 12 := by
  intro claim
  obtain ⟨fits, double⟩ : ∃ h, Decimal.toDouble ⟨false, 10000000000005, -10⟩ = .finite false 8796093022212398 (-43) h :=
    ⟨by decide, rfl⟩
  obtain ⟨_, constant⟩ := claim (Decimal.toDouble ⟨false, 10000000000005, -10⟩) 2 rfl le_rfl
  have computed : ofTerms [] (.real (Decimal.toDouble ⟨false, 10000000000005, -10⟩)) = .ok ⟨[], .int 1000⟩ := by
    decide +kernel
  rw [computed, Returns.ok_iff, double, Double.toReal_finite, if_neg Bool.false_ne_true] at constant
  norm_num at constant

end Surd.RadicalSum
