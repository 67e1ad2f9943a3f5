import Surd.Proofs.Number.Quotient
import Surd.Proofs.Radical.NormalForm
import Surd.Proofs.Radical.Unique

/-!
# Division undone by multiplication

Dividing a sum of whole numbers rounds each of them to a double, drops what is below the tolerance and takes what is
close to a whole number for that number. Multiplying by the divisor gives a number back if it was a multiple of the
divisor, or if its quotient was neither dropped nor moved and it has less than 52 digits; numbers that were dropped or
moved are lost. Up to 9 · 10 ^ 11 nothing is.
-/

namespace Surd.RadicalSum

open Number (fraction)

variable {k a d n : ℤ} {ps : List (ℕ × ℤ)} {c c' : ℤ → Number} {l l' : Number} {f : Number → Except Fault Number}
  {ss ts : List Term}

/-! ## One operation on each number -/

/-- A constant and roots with coefficients that depend on whole numbers. -/
def withRoots (l : Number) (c : ℤ → Number) (ps : List (ℕ × ℤ)) : RadicalSum :=
  ⟨ps.map fun p => ⟨c p.2, .int p.1⟩, l⟩

theorem mapM_terms (each : ∀ p ∈ ps, f (c p.2) = .ok (c' p.2)) :
    (withRoots l c ps).terms.mapM (fun t => do return (⟨← f t.coefficient, t.radicand⟩ : Term)) =
      .ok (withRoots l c' ps).terms := by
  induction ps with
  | nil => rfl
  | cons p ps ih =>
      obtain ⟨first, rest⟩ := List.forall_mem_cons.mp each
      simp only [withRoots, List.map_cons, List.mapM_cons, first] at ih ⊢
      rw [ih rest]
      rfl

theorem nodup_radicands (h : Roots ps) (c : ℤ → Number) :
    (Merged.radicands (ps.map fun p => ((p.1 : ℤ), c p.2))).Nodup := by
  have injective : Function.Injective fun r : ℕ => Number.int r := fun r q same => Int.ofNat.inj (Number.int.inj same)
  have distinct := h.distinct.map injective
  rw [List.map_map] at distinct
  rw [Merged.radicands, List.map_map]
  exact distinct

/-- The normal form of roots with distinct radicands: those whose coefficients are not negligible, settled. -/
theorem ofTerms_withRoots (h : Roots ps) (neutral : ∀ p ∈ ps, Number.add 0 (c p.2) = .ok (c p.2)) (l : Number) :
    ofTerms (withRoots l c ps).terms l =
      .ok (withRoots (settle l) (fun a => settle (c a)) (ps.filter fun p => !(c p.2).isNegligible)) := by
  have shape : (withRoots l c ps).terms = Merged.toTerms (ps.map fun p => ((p.1 : ℤ), c p.2)) := by
    rw [withRoots, Merged.toTerms, List.map_map]
    rfl
  have fold : (withRoots l c ps).terms.foldlM mergeTerm (l, []) =
      .ok (l, [] ++ ps.map fun p => ((p.1 : ℤ), c p.2)) := by
    rw [shape]
    apply foldlM_of_distinct
    · exact nodup_radicands h c
    · intro m hm
      obtain ⟨p, hp, rfl⟩ := List.mem_map.mp hm
      exact ⟨p.1, (h.each p hp).1, rfl⟩
    · intro m hm
      obtain ⟨p, hp, rfl⟩ := List.mem_map.mp hm
      exact neutral p hp
  refine ofTerms_eq_ok_iff.mpr ⟨_, fold, ?_⟩
  rw [withRoots, List.nil_append, Merged.kept, Merged.toTerms, List.filter_map, List.map_map, List.map_map]
  congr 1
  apply List.map_congr_left
  intro p hp
  have large : (c p.2).isNegligible = false := by simpa using (List.mem_filter.mp hp).2
  rw [settle_of_not large]
  rfl

/-- An operation on the constant and on each coefficient, followed by the normal form. -/
theorem mapTerms_withRoots (h : Roots ps) (c' : ℤ → Number) (each : ∀ p ∈ ps, f (c p.2) = .ok (c' p.2))
    (constant : f l = .ok l') (neutral : ∀ p ∈ ps, Number.add 0 (c' p.2) = .ok (c' p.2)) :
    (do
      let terms ← (withRoots l c ps).terms.mapM fun (t : Term) => do return (⟨← f t.coefficient, t.radicand⟩ : Term)
      let constant ← f (withRoots l c ps).constant
      ofTerms terms constant) =
        .ok (withRoots (settle l') (fun a => settle (c' a)) (ps.filter fun p => !(c' p.2).isNegligible)) := by
  rw [mapM_terms each, ok_bind, withRoots, constant, ok_bind]
  exact ofTerms_withRoots h neutral l'

theorem Roots.filter (h : Roots ps) (keeps : ℕ × ℤ → Bool) : Roots (ps.filter keeps) where
  each p hp := h.each p (List.mem_of_mem_filter hp)
  distinct := (List.filter_sublist.map Prod.fst).nodup h.distinct

/-! ## What becomes of a number -/

/-- A whole number over the divisor, as a sum has it. -/
def share (d a : ℤ) : Number := settle (.real (fraction a d))

/-- A number times the divisor. -/
def times (d : ℤ) : Number → Number
  | .int n => .int (n * d)
  | .real x => .real (x.mul (.ofInt d))

/-- What a whole number is after the division and the multiplication. -/
def restored (d a : ℤ) : Number := settle (times d (share d a))

/-- Whether the division leaves a root there. -/
def keeps (d : ℤ) (p : ℕ × ℤ) : Bool := !(Number.real (fraction p.2 d)).isNegligible

theorem mul_eq_times (small : d.natAbs < 2 ^ 53) (b : Number) : b.mul (.int d) = .ok (times d b) := by
  cases b with
  | int n => rfl
  | real x =>
      have factor : Number.toDouble (.int d) = .ok (Double.ofInt d) := by
        rw [Number.toDouble, Double.isInfinite_of_isFinite (Double.ofInt_exact small).1]
        rfl
      show (Number.toDouble (.int d) >>= fun y => Except.ok (Number.real (x.mul y))) = _
      rw [factor]
      rfl

/-- A multiple of the divisor is divided exactly. -/
theorem share_mul (hd : d ≠ 0) (hn : n.natAbs < 2 ^ 53) : share d (n * d) = .int n := by
  obtain ⟨finite, value⟩ := Number.toReal_fraction hd hn
  cases small : (Number.real (fraction (n * d) d)).isNegligible with
  | true =>
      rw [share, settle_of_isNegligible small, Number.eq_zero_of_isNegligible finite value small]
      rfl
  | false => rw [share, settle_of_not small, Number.normalize_real finite value hn]

theorem restored_mul (hd : d ≠ 0) (hn : n.natAbs < 2 ^ 53) : restored d (n * d) = .int (n * d) := by
  rw [restored, share_mul hd hn, times, settle_int]

theorem share_zero (hd : d ≠ 0) : share d 0 = .int 0 := by
  simpa using share_mul (n := 0) hd (by decide)

/-- A number whose quotient stays a double comes back if it is below 2 ^ 51. -/
theorem restored_of_share (hd : d ≠ 0) (small' : d.natAbs < 2 ^ 53) (small : a.natAbs < 2 ^ 51)
    (left : share d a = .real (fraction a d)) : restored d a = .int a := by
  have ha : a ≠ 0 := by
    rintro rfl
    rw [share_zero hd] at left
    cases left
  rw [restored, left, times,
    settle_of_not (Number.isNegligible_fraction_mul ha hd (small.trans (by decide)) small'),
    Number.normalize_fraction_mul ha hd small small']

/-- The division leaves enough of a number to restore it: it is a multiple of the divisor, or its quotient is neither
dropped nor taken for a whole number. -/
def Recoverable (d a : ℤ) : Prop := d ∣ a ∨ share d a = .real (fraction a d)

theorem recoverable_of_restored (h : (restored d a).equal (.int a) = true) : Recoverable d a := by
  obtain left | ⟨n, whole⟩ := settle_real_cases (fraction a d)
  · exact .inr left
  · rw [restored, share, whole, times, settle_int, Number.equal_int, decide_eq_true_eq] at h
    exact .inl (Dvd.intro_left n h)

/-! ## The sums -/

theorem divide_ofRoots (h : Roots ps) (small : ∀ p ∈ ps, p.2.natAbs < 2 ^ 53) (hd : d ≠ 0) (small' : d.natAbs < 2 ^ 53)
    (inRange : (fraction k d).isFinite = true) :
    (ofRoots k ps).divide (.int d) = .ok (withRoots (share d k) (share d) (ps.filter (keeps d))) := by
  have div_eq : ∀ {a : ℤ}, (fraction a d).isFinite = true →
      (Number.int a).div (.int d) = .ok (.real (fraction a d)) := by
    intro a finite
    rw [Number.div, Number.quotient_eq hd finite]
    rfl
  apply mapTerms_withRoots (f := fun b => b.div (.int d)) h (fun a => .real (fraction a d))
  · exact fun p hp => div_eq (Number.isFinite_fraction hd (small p hp))
  · exact div_eq inRange
  · intro p hp
    have nonzero := Number.toReal_fraction_ne_zero (h.each p hp).2.2 hd (small p hp) small'
    exact congrArg (fun y => Except.ok (Number.real y)) (Double.ofInt_zero_add fun _ => nonzero)

/-- Multiplied again, no root is lost any more. -/
theorem isNegligible_times_share (ha : a ≠ 0) (hd : d ≠ 0) (small : a.natAbs < 2 ^ 53) (small' : d.natAbs < 2 ^ 53)
    (kept : (Number.real (fraction a d)).isNegligible = false) : (times d (share d a)).isNegligible = false := by
  have nonzero := Number.isZero_normalize kept
  rw [share, settle_of_not kept]
  obtain same | ⟨n, whole, _⟩ := Number.normalize_real_cases (fraction a d)
  · rw [same]
    exact Number.isNegligible_fraction_mul ha hd small small'
  · rw [whole, Number.isZero_int, decide_eq_false_iff_not] at nonzero
    rw [whole, times, Number.isNegligible_int, decide_eq_false_iff_not]
    exact mul_ne_zero nonzero hd

theorem scale_share (h : Roots ps) (small : ∀ p ∈ ps, p.2.natAbs < 2 ^ 53) (hd : d ≠ 0) (small' : d.natAbs < 2 ^ 53) :
    (withRoots (share d k) (share d) (ps.filter (keeps d))).scale (.int d) =
      .ok (withRoots (restored d k) (restored d) (ps.filter (keeps d))) := by
  have left : ∀ p ∈ ps.filter (keeps d), (times d (share d p.2)).isNegligible = false := by
    intro p hp
    obtain ⟨there, kept⟩ := List.mem_filter.mp hp
    exact isNegligible_times_share (h.each p there).2.2 hd (small p there) small' (by simpa [keeps] using kept)
  have all : (ps.filter (keeps d)).filter (fun p => !(times d (share d p.2)).isNegligible) = ps.filter (keeps d) :=
    List.filter_eq_self.mpr fun p hp => by rw [left p hp, Bool.not_false]
  have scaled := mapTerms_withRoots (f := fun b => b.mul (.int d)) (h.filter (keeps d)) (fun a => times d (share d a))
    (fun p _ => mul_eq_times small' (share d p.2)) (mul_eq_times small' (share d k))
    (fun p hp => Number.zero_add_of_isNegligible (left p hp))
  rw [all] at scaled
  exact scaled

/-! ## Equality -/

theorem exists_equal_of_equalTerms (h : equalTerms ss ts = true) : ∀ t ∈ ts, ∃ s ∈ ss, s.equal t = true := by
  induction ss generalizing ts with
  | nil =>
      cases ts with
      | nil => exact List.forall_mem_nil _
      | cons => cases h
  | cons s ss ih =>
      cases ts with
      | nil => cases h
      | cons t ts =>
          obtain ⟨first, rest⟩ := (Bool.and_eq_true _ _).mp h
          refine List.forall_mem_cons.mpr ⟨⟨s, List.mem_cons_self, first⟩, fun u hu => ?_⟩
          obtain ⟨v, hv, same⟩ := ih rest u hu
          exact ⟨v, List.mem_cons_of_mem _ hv, same⟩

/-- A sum that is equal to roots has each of them, with an equal coefficient. -/
theorem equal_of_withRoots {qs : List (ℕ × ℤ)} (h : Roots ps) (sub : qs ⊆ ps)
    (same : (withRoots l c qs).equal (ofRoots k ps) = true) :
    l.equal (.int k) = true ∧ ∀ p ∈ ps, (c p.2).equal (.int p.2) = true := by
  obtain ⟨constant, terms⟩ := (Bool.and_eq_true _ _).mp same
  refine ⟨constant, fun p hp => ?_⟩
  have there : rootTerm p ∈ (ofRoots k ps).sortedTerms := List.mem_mergeSort.mpr (List.mem_map_of_mem hp)
  obtain ⟨t, ht, alike⟩ := exists_equal_of_equalTerms terms _ there
  obtain ⟨q, hq, rfl⟩ := List.mem_map.mp (List.mem_mergeSort.mp ht)
  obtain ⟨coefficient, radicand⟩ := (Bool.and_eq_true _ _).mp alike
  rw [rootTerm, Number.equal_int, decide_eq_true_eq, Int.natCast_inj] at radicand
  obtain rfl : q = p := List.inj_on_of_nodup_map h.distinct (sub hq) hp radicand
  exact coefficient

/-! ## Division undone -/

/-- How far the division of a sum by a whole number and the multiplication by it lead back. -/
structure Undone (k : ℤ) (ps : List (ℕ × ℤ)) (d : ℤ) (q p : RadicalSum) : Prop where
  divided : (ofRoots k ps).divide (.int d) = .ok q
  scaled : q.scale (.int d) = .ok p
  /-- The roots whose quotients are below the tolerance are dropped, and no others. -/
  radicands : q.terms.map Term.radicand = (ps.filter (keeps d)).map fun p => .int p.1
  /-- None is, if no coefficient is a million millions times smaller than the divisor. -/
  complete : (∀ p ∈ ps, d.natAbs ≤ 10 ^ 12 * p.2.natAbs) → q.terms.map Term.radicand = ps.map fun p => .int p.1
  /-- Where the sum comes back, the division has left enough of each number. -/
  needed : p.equal (ofRoots k ps) = true → ∀ a ∈ k :: ps.map Prod.snd, Recoverable d a
  /-- Where it has, and the numbers that are no multiples of the divisor are below 2 ^ 51, the sum comes back. -/
  enough : (∀ a ∈ k :: ps.map Prod.snd,
    Recoverable d a ∧ (a.natAbs < 2 ^ 51 ∨ d ∣ a ∧ a.natAbs < 2 ^ 53 * d.natAbs)) → p = ofRoots k ps
  /-- Between numbers up to 9 · 10 ^ 11 nothing is lost. -/
  moderate : d.natAbs ≤ 9 * 10 ^ 11 → (∀ a ∈ k :: ps.map Prod.snd, a.natAbs ≤ 9 * 10 ^ 11) →
    q.terms.map Term.radicand = (ps.map fun p => .int p.1) ∧ p = ofRoots k ps

theorem restored_eq (hd : d ≠ 0) (small' : d.natAbs < 2 ^ 53)
    (h : Recoverable d a ∧ (a.natAbs < 2 ^ 51 ∨ d ∣ a ∧ a.natAbs < 2 ^ 53 * d.natAbs)) : restored d a = .int a := by
  have multiple : d ∣ a → a.natAbs < 2 ^ 53 * d.natAbs → restored d a = .int a := by
    rintro ⟨n, rfl⟩ bounded
    rw [Int.natAbs_mul, mul_comm] at bounded
    rw [mul_comm, restored_mul hd (lt_of_mul_lt_mul_right bounded (Nat.zero_le _))]
  obtain ⟨divides | left, small | ⟨divides', bounded⟩⟩ := h
  · have divisor : 1 ≤ d.natAbs := Int.natAbs_pos.mpr hd
    exact multiple divides (by omega)
  · exact multiple divides bounded
  · exact restored_of_share hd small' small left
  · exact multiple divides' bounded

theorem recoverable_of_moderate (hd : d ≠ 0) (small : a.natAbs ≤ 9 * 10 ^ 11) (small' : d.natAbs ≤ 9 * 10 ^ 11) :
    Recoverable d a := by
  obtain rfl | ha := eq_or_ne a 0
  · exact .inl (dvd_zero d)
  have size : 1 ≤ a.natAbs := Int.natAbs_pos.mpr ha
  have large : d.natAbs ≤ 10 ^ 12 * a.natAbs := by omega
  have kept := Number.isNegligible_fraction hd (small.trans_lt (by decide)) large
  obtain same | ⟨n, whole, _⟩ := Number.normalize_real_cases (fraction a d)
  · exact .inr ((settle_of_not kept).trans same)
  · exact .inl (Dvd.intro_left n (Number.eq_of_normalize_fraction ha hd small small' whole))

/-- A root that comes back was not dropped. -/
theorem keeps_of_restored {p : ℕ × ℤ} (nonzero : p.2 ≠ 0) (h : restored d p.2 = .int p.2) : keeps d p = true := by
  by_contra dropped
  have small : (Number.real (fraction p.2 d)).isNegligible = true := by simpa [keeps] using dropped
  rw [restored, share, settle_of_isNegligible small] at h
  have zero := Number.int.inj ((settle_int (0 * d)).symm.trans h)
  exact nonzero (zero.symm.trans (Int.zero_mul d))

theorem radicands_withRoots (l : Number) (c : ℤ → Number) (ps : List (ℕ × ℤ)) :
    (withRoots l c ps).terms.map Term.radicand = ps.map fun p => .int p.1 := by
  rw [withRoots, List.map_map]
  rfl

theorem withRoots_restored (h : Roots ps) (all : ∀ a ∈ k :: ps.map Prod.snd, restored d a = .int a) :
    withRoots (restored d k) (restored d) (ps.filter (keeps d)) = ofRoots k ps := by
  obtain ⟨constant, coefficients⟩ := List.forall_mem_cons.mp all
  have each : ∀ p ∈ ps, restored d p.2 = .int p.2 := fun p hp => coefficients _ (List.mem_map_of_mem hp)
  have complete : ps.filter (keeps d) = ps :=
    List.filter_eq_self.mpr fun p hp => keeps_of_restored (h.each p hp).2.2 (each p hp)
  have terms : (withRoots (.int k) (restored d) ps) = ofRoots k ps := by
    rw [withRoots, ofRoots, List.map_congr_left fun p hp => by rw [each p hp]]
    rfl
  rw [complete, constant, terms]

/-- A coefficient that is not a million millions times smaller than the divisor is not dropped. -/
theorem filter_keeps (h : ∀ p ∈ ps, p.2.natAbs < 2 ^ 53 ∧ d.natAbs ≤ 10 ^ 12 * p.2.natAbs) (hd : d ≠ 0) :
    ps.filter (keeps d) = ps := by
  rw [List.filter_eq_self]
  intro p hp
  rw [keeps, Number.isNegligible_fraction hd (h p hp).1 (h p hp).2, Bool.not_false]

theorem scale_divide (h : Roots ps) (small : ∀ p ∈ ps, p.2.natAbs < 2 ^ 53) (hd : d ≠ 0) (small' : d.natAbs < 2 ^ 53)
    (inRange : (fraction k d).isFinite = true) : ∃ q p, Undone k ps d q p := by
  have enough : (∀ a ∈ k :: ps.map Prod.snd,
      Recoverable d a ∧ (a.natAbs < 2 ^ 51 ∨ d ∣ a ∧ a.natAbs < 2 ^ 53 * d.natAbs)) →
      withRoots (restored d k) (restored d) (ps.filter (keeps d)) = ofRoots k ps :=
    fun all => withRoots_restored h fun a ha => restored_eq hd small' (all a ha)
  have complete : (∀ p ∈ ps, d.natAbs ≤ 10 ^ 12 * p.2.natAbs) → ps.filter (keeps d) = ps :=
    fun large => filter_keeps (fun p hp => ⟨small p hp, large p hp⟩) hd
  refine ⟨_, _, divide_ofRoots h small hd small' inRange, scale_share h small hd small',
    radicands_withRoots _ _ _, ?_, ?_, enough, ?_⟩
  · intro large
    rw [complete large, radicands_withRoots]
  · intro same
    obtain ⟨constant, coefficients⟩ := equal_of_withRoots h List.filter_sublist.subset same
    refine List.forall_mem_cons.mpr ⟨recoverable_of_restored constant, fun a ha => ?_⟩
    obtain ⟨p, hp, rfl⟩ := List.mem_map.mp ha
    exact recoverable_of_restored (coefficients p hp)
  · intro moderate bounded
    refine ⟨?_, enough fun a ha => ⟨recoverable_of_moderate hd (bounded a ha) moderate, ?_⟩⟩
    · rw [complete, radicands_withRoots]
      intro p hp
      have size : 1 ≤ p.2.natAbs := Int.natAbs_pos.mpr (h.each p hp).2.2
      omega
    · exact .inl ((bounded a ha).trans_lt (by decide))

theorem roots_two (hc : a ≠ 0) : Roots [(2, a)] where
  each := List.forall_mem_singleton.mpr ⟨le_rfl, Nat.prime_two.squarefree, hc⟩
  distinct := List.nodup_singleton 2

/-- One and three roots of two are divided by seven and come back. -/
theorem scale_divide_sevenths : Roots [(2, 3)] ∧ (fraction 1 7).isFinite = true ∧
    ∃ q p, Undone 1 [(2, 3)] 7 q p ∧ q.terms.map Term.radicand = [.int 2] ∧ p = ofRoots 1 [(2, 3)] := by
  have roots : Roots [(2, 3)] := roots_two (by decide)
  have inRange : (fraction 1 7).isFinite = true := by decide +kernel
  obtain ⟨q, p, undone⟩ := scale_divide (k := 1) (d := 7) roots (by decide) (by decide) (by decide) inRange
  exact ⟨roots, inRange, q, p, undone, undone.moderate (by decide) (by decide)⟩

/-- A root of two over 10 ^ 13 is dropped. 10 ^ 13 + 1 of them over 10 ^ 13 are taken for one, and one of them times
10 ^ 13 is another number. And above 2 ^ 51 a number may be one off though nothing was dropped or moved. -/
theorem scale_divide_loses :
    (¬∀ (k : ℤ) (ps : List (ℕ × ℤ)) (d : ℤ), Roots ps → (∀ p ∈ ps, p.2.natAbs < 2 ^ 53) → d ≠ 0 → d.natAbs < 2 ^ 53 →
      Returns ((ofRoots k ps).divide (.int d)) fun q => q.terms.map Term.radicand = ps.map fun p => .int p.1) ∧
    (¬∀ (k : ℤ) (ps : List (ℕ × ℤ)) (d : ℤ), Roots ps → (∀ p ∈ ps, p.2.natAbs < 2 ^ 53) → d ≠ 0 → d.natAbs < 2 ^ 53 →
      Returns ((ofRoots k ps).divide (.int d)) fun q =>
        Returns (q.scale (.int d)) fun p => p.equal (ofRoots k ps) = true) ∧
    Recoverable 193688307 3544779274172971 ∧
    Returns ((ofRoots 0 [(2, 3544779274172971)]).divide (.int 193688307)) fun q =>
      q.scale (.int 193688307) = .ok (ofRoots 0 [(2, 3544779274172972)]) := by
  have dropped : (ofRoots 0 [(2, 1)]).divide (.int (10 ^ 13)) = .ok ⟨[], 0⟩ := by decide +kernel
  have moved : (ofRoots 0 [(2, 10 ^ 13 + 1)]).divide (.int (10 ^ 13)) = .ok (ofRoots 0 [(2, 1)]) := by decide +kernel
  have other : (ofRoots 0 [(2, 1)]).scale (.int (10 ^ 13)) = .ok (ofRoots 0 [(2, 10 ^ 13)]) := by decide +kernel
  refine ⟨fun claim => ?_, fun claim => ?_, .inr (by decide +kernel), exists_of_bind_eq_ok (by decide +kernel)⟩
  · have kept := claim 0 [(2, 1)] (10 ^ 13) (roots_two (by decide)) (by decide) (by decide) (by decide)
    rw [dropped, Returns.ok_iff] at kept
    cases kept
  · have same := claim 0 [(2, 10 ^ 13 + 1)] (10 ^ 13) (roots_two (by decide)) (by decide) (by decide) (by decide)
    rw [moved, Returns.ok_iff, other, Returns.ok_iff, equal_ofRoots (roots_two (by decide)),
      List.singleton_perm_singleton] at same
    exact absurd same.2 (by decide)

end Surd.RadicalSum
