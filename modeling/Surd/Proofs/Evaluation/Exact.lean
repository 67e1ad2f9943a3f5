import Surd.Proofs.Radical.Exact
import Surd.Evaluation

/-!
# Exact evaluation

The exact side of a worth travels beside its double and never takes anything from it. On integer radicals this is a
theorem: where evaluation keeps an exact side at every subtree, the exact side of the tree is a sum over the whole
numbers whose real value is that of the tree.
-/

namespace Surd

/-- The subtrees of a tree, the tree itself first. -/
def Tree.subtrees : Tree → List Tree
  | number x => [number x]
  | .variable name => [.variable name]
  | negate t => negate t :: t.subtrees
  | binary op l r => binary op l r :: (l.subtrees ++ r.subtrees)
  | call f t => call f t :: t.subtrees

theorem Tree.self_mem_subtrees (t : Tree) : t ∈ t.subtrees := by
  cases t <;> exact List.mem_cons_self

/-- The integer radicals, each with its real value: whole numerals below 2 ^ 53 and square roots of whole numerals
under negations, sums, differences, products and powers with a whole numeral. -/
inductive Tree.IntegerRadical : Tree → ℝ → Prop where
  | number {x : Double} {n : Nat} (hx : x.isFinite = true) (hn : x.toReal = n) (hlt : n < 2 ^ 53) :
      IntegerRadical (.number x) n
  | root {x : Double} {m : Nat} (hx : x.isFinite = true) (hm : x.toReal = m) :
      IntegerRadical (.call "sqrt" (.number x)) √(m : ℝ)
  | negate {t : Tree} {a : ℝ} (ht : IntegerRadical t a) : IntegerRadical (.negate t) (-a)
  | add {l r : Tree} {a b : ℝ} (hl : IntegerRadical l a) (hr : IntegerRadical r b) :
      IntegerRadical (.binary .add l r) (a + b)
  | sub {l r : Tree} {a b : ℝ} (hl : IntegerRadical l a) (hr : IntegerRadical r b) :
      IntegerRadical (.binary .sub l r) (a - b)
  | mul {l r : Tree} {a b : ℝ} (hl : IntegerRadical l a) (hr : IntegerRadical r b) :
      IntegerRadical (.binary .mul l r) (a * b)
  | pow {l : Tree} {a : ℝ} {x : Double} {k : Nat} (hl : IntegerRadical l a)
      (hx : x.isFinite = true) (hk : x.toReal = k) :
      IntegerRadical (.binary .pow l (.number x)) (a ^ k)

namespace Evaluation

/-- Faults are stops, so a computation that meets none succeeds either way. -/
theorem returns_lift {α : Type} {e : Except Fault α} {P : α → Prop} :
    Returns (liftM e : Except Stop α) P ↔ Returns e P := by
  cases e with
  | error f => exact iff_of_false Returns.not_error Returns.not_error
  | ok a => exact Returns.ok_iff.trans Returns.ok_iff.symm

variable {lib : Elementary} {values : Entries String Number} {options : Options}
variable {t l r : Tree} {left right w : Worth} {x : Double} {a b : ℝ}

/-- A radical sum that is computed becomes an exact side. -/
theorem returns_some {e : Except Fault RadicalSum} (h : Returns e (RadicalSum.Denotes · a)) :
    Returns (some <$> e) fun o => ∃ s ∈ o, s.Denotes a := by
  apply Returns.map
  apply h.mono
  intro s hs
  exact ⟨s, rfl, hs⟩

/-! ## Leaves -/

/-- A whole numeral keeps its double, and below 2 ^ 53 its exact side is its whole number. -/
theorem ofNumeral_returns {n : Nat} (hx : x.isFinite = true) (hn : x.toReal = n) :
    Returns (ofNumeral x) fun w => w.value = x ∧ (n < 2 ^ 53 → ∃ s ∈ w.exact, s.Denotes n) := by
  have finite : checked x = .ok x := by
    cases x with
    | nan => cases hx
    | infinite => cases hx
    | finite => rfl
  have whole : x.toReal = (n : Int) := by rw [hn, Int.cast_natCast]
  rw [ofNumeral, finite]
  show Returns (if x.isWhole then _ else _) _
  rw [if_pos (Double.isWhole_of_toReal hx whole)]
  refine .ok ⟨rfl, fun hlt => ⟨_, rfl, ?_⟩⟩
  obtain ⟨s, hs, denotes⟩ := RadicalSum.ofTerms_real_returns hx whole hlt
  obtain rfl := Except.ok.inj hs
  exact denotes

/-- The root of a whole numeral that is kept exact. -/
theorem exactCall_sqrt {m : Nat} (hx : x.isFinite = true) (hm : x.toReal = m)
    (kept : Returns (exactCall options "sqrt" x) fun o => o.isSome = true) :
    Returns (exactCall options "sqrt" x) fun o => ∃ s ∈ o, s.Denotes √(m : ℝ) := by
  rw [exactCall, if_pos rfl] at kept ⊢
  obtain ⟨exact, tested, kept⟩ := kept.of_bind
  rw [tested]
  cases exact with
  | false => exact absurd (Returns.ok_iff.mp kept) Bool.false_ne_true
  | true =>
      apply (Radical.simplify_returns (Number.isNat_real hx hm)).bind
      rintro r ⟨integral, value⟩
      have sum := RadicalSum.ofTerms_returns (.cons integral .nil) 0
      rw [value, Int.cast_zero, zero_add, add_zero] at sum
      exact returns_some sum

/-! ## Operations -/

theorem mapM_negate_returns {o : Option RadicalSum} (h : ∃ s ∈ o, s.Denotes a) :
    Returns (o.mapM RadicalSum.negate) fun o => ∃ s ∈ o, s.Denotes (-a) := by
  obtain ⟨s, rfl, hs⟩ := h
  rw [Option.mapM_some]
  exact returns_some (RadicalSum.negate_returns hs)

theorem exactSum_returns {o o' : Option RadicalSum} {x y : Double} (h : ∃ s ∈ o, s.Denotes a)
    (h' : ∃ s ∈ o', s.Denotes b) :
    Returns (exactSum o x o' y) fun o => ∃ s ∈ o, s.Denotes (a + b) := by
  obtain ⟨s, rfl, hs⟩ := h
  obtain ⟨t, rfl, ht⟩ := h'
  exact returns_some (RadicalSum.add_returns hs ht)

theorem exactBinary_sub_returns (hl : ∃ s ∈ left.exact, s.Denotes a)
    (hr : ∃ s ∈ right.exact, s.Denotes b) :
    Returns (exactBinary lib .sub left right) fun o => ∃ s ∈ o, s.Denotes (a - b) := by
  rw [sub_eq_add_neg]
  exact (mapM_negate_returns hr).bind fun opposite ho => exactSum_returns hl ho

theorem exactBinary_mul_returns (hl : ∃ s ∈ left.exact, s.Denotes a)
    (hr : ∃ s ∈ right.exact, s.Denotes b) :
    Returns (exactBinary lib .mul left right) fun o => ∃ s ∈ o, s.Denotes (a * b) := by
  obtain ⟨s, hs, denotes⟩ := hl
  obtain ⟨t, ht, denotes'⟩ := hr
  rw [exactBinary, Option.mem_def.mp hs, Option.mem_def.mp ht]
  exact returns_some (RadicalSum.multiply_returns denotes denotes')

/-- The exponent is the double of the right side. -/
theorem exactBinary_pow_returns {k : Nat} (hl : ∃ s ∈ left.exact, s.Denotes a)
    (hx : right.value.isFinite = true) (hk : right.value.toReal = k)
    (kept : Returns (exactBinary lib .pow left right) fun o => o.isSome = true) :
    Returns (exactBinary lib .pow left right) fun o => ∃ s ∈ o, s.Denotes (a ^ k) := by
  obtain ⟨s, hs, denotes⟩ := hl
  have exponent := Number.isNat_real hx hk
  have accepted : (right.value.compareInt? 0 != some .lt && right.value.isWhole) = true :=
    Bool.and_eq_true_iff.mpr ⟨congrArg not exponent.isNegative, exponent.isWhole⟩
  simp only [exactBinary, Option.mem_def.mp hs, if_pos accepted, exponent.truncate] at kept ⊢
  obtain ⟨fits, tested, kept⟩ := kept.of_bind
  rw [tested]
  cases fits with
  | false => exact absurd (Returns.ok_iff.mp kept) Bool.false_ne_true
  | true => exact returns_some (RadicalSum.power_returns denotes k)

/-- The exact side of a worth is that of the step to it, whatever its double is. An exact side that is there was
not changed on the way. -/
theorem exact_of_returns {z : Except Stop Double} {e : Except Fault (Option RadicalSum)}
    {g : Option RadicalSum → Option RadicalSum} (hg : ∀ o, (g o).isSome = true → g o = o)
    (kept : Returns (do
      let result ← z
      let exact ← (e : Except Fault _)
      return (⟨← checked result, g exact⟩ : Worth)) fun w => w.exact.isSome = true)
    (step : Returns e (fun o => o.isSome = true) → Returns e fun o => ∃ s ∈ o, s.Denotes a) :
    Returns (do
      let result ← z
      let exact ← (e : Except Fault _)
      return (⟨← checked result, g exact⟩ : Worth)) fun w => ∃ s ∈ w.exact, s.Denotes a := by
  obtain ⟨w, hw, present⟩ := kept
  obtain ⟨result, _, lifted⟩ := Returns.of_bind ⟨w, hw, Eq.refl w⟩
  obtain ⟨o, ho, rounded⟩ := returns_lift.mp lifted.of_bind
  obtain ⟨value, _, _, ⟨⟩, rfl⟩ := rounded.of_bind
  have same : g o = o := hg o present
  obtain ⟨_, ho', denotes⟩ := step ⟨o, ho, same ▸ present⟩
  obtain rfl := Except.ok.inj (ho.symm.trans ho')
  refine ⟨_, hw, ?_⟩
  rw [same]
  exact denotes

theorem combined_returns {op : BinaryOp}
    (kept : Returns (combined lib op left right) fun w => w.exact.isSome = true)
    (step : Returns (exactBinary lib op left right) (fun o => o.isSome = true) →
      Returns (exactBinary lib op left right) fun o => ∃ s ∈ o, s.Denotes a) :
    Returns (combined lib op left right) fun w => ∃ s ∈ w.exact, s.Denotes a := by
  refine exact_of_returns (g := Option.filter RadicalSum.isFinite) (fun o present => ?_) kept step
  obtain ⟨s, hs⟩ := Option.isSome_iff_exists.mp present
  rw [hs, (Option.filter_eq_some_iff.mp hs).1]

theorem called_returns {m : Nat} (hx : w.value.isFinite = true) (hm : w.value.toReal = m)
    (kept : Returns (called lib options "sqrt" w) fun w => w.exact.isSome = true) :
    Returns (called lib options "sqrt" w) fun w => ∃ s ∈ w.exact, s.Denotes √(m : ℝ) :=
  exact_of_returns (g := id) (fun _ _ => rfl) kept (exactCall_sqrt hx hm)

/-! ## Trees -/

/-- Evaluation succeeds at every subtree and keeps an exact side there. -/
def KeepsExact (lib : Elementary) (values : Entries String Number) (options : Options) (t : Tree) :
    Prop :=
  ∀ u ∈ t.subtrees, Returns (ofTree lib values options u) fun w => w.exact.isSome = true

theorem KeepsExact.self (h : KeepsExact lib values options t) :
    Returns (ofTree lib values options t) fun w => w.exact.isSome = true :=
  h t t.self_mem_subtrees

theorem keepsExact_negate : KeepsExact lib values options (.negate t) ↔
    Returns (ofTree lib values options (.negate t)) (fun w => w.exact.isSome = true) ∧
      KeepsExact lib values options t :=
  List.forall_mem_cons

theorem keepsExact_call {f : String} : KeepsExact lib values options (.call f t) ↔
    Returns (ofTree lib values options (.call f t)) (fun w => w.exact.isSome = true) ∧
      KeepsExact lib values options t :=
  List.forall_mem_cons

theorem keepsExact_binary {op : BinaryOp} : KeepsExact lib values options (.binary op l r) ↔
    Returns (ofTree lib values options (.binary op l r)) (fun w => w.exact.isSome = true) ∧
      KeepsExact lib values options l ∧ KeepsExact lib values options r :=
  List.forall_mem_cons.trans (and_congr_right' List.forall_mem_append)

/-- What is known of the operands is known where they are combined. -/
theorem ofTree_binary_returns {op : BinaryOp} {P Q R : Worth → Prop}
    (kept : KeepsExact lib values options (.binary op l r))
    (hl : Returns (ofTree lib values options l) P) (hr : Returns (ofTree lib values options r) Q)
    (step : ∀ left right, P left → Q right →
      Returns (combined lib op left right) (fun w => w.exact.isSome = true) →
      Returns (combined lib op left right) R) :
    Returns (ofTree lib values options (.binary op l r)) R := by
  apply (hl.and kept.self.of_bind).bind
  rintro left ⟨hleft, h⟩
  apply (hr.and h.of_bind).bind
  rintro right ⟨hright, h⟩
  exact step left right hleft hright h

/-- Where evaluation keeps an exact side throughout an integer radical, the exact side of the tree is a sum over
the whole numbers whose real value is that of the tree. -/
theorem ofTree_exact (h : t.IntegerRadical a) (kept : KeepsExact lib values options t) :
    Returns (ofTree lib values options t) fun w => ∃ s ∈ w.exact, s.Denotes a := by
  induction h with
  | number hx hn hlt => exact (ofNumeral_returns hx hn).mono fun w hw => hw.2 hlt
  | root hx hm =>
      apply ((ofNumeral_returns hx hm).and kept.self.of_bind).bind
      rintro w ⟨⟨value, _⟩, h⟩
      rw [← value] at hx hm
      exact called_returns hx hm h
  | negate _ ih =>
      apply (ih (keepsExact_negate.mp kept).2).bind
      intro w hw
      exact (returns_lift.mpr (mapM_negate_returns hw)).bind fun o ho => .ok ho
  | add _ _ ihl ihr =>
      obtain ⟨_, hl, hr⟩ := keepsExact_binary.mp kept
      refine ofTree_binary_returns kept (ihl hl) (ihr hr) ?_
      intro left right hleft hright h
      exact combined_returns h fun _ => exactSum_returns hleft hright
  | sub _ _ ihl ihr =>
      obtain ⟨_, hl, hr⟩ := keepsExact_binary.mp kept
      refine ofTree_binary_returns kept (ihl hl) (ihr hr) ?_
      intro left right hleft hright h
      exact combined_returns h fun _ => exactBinary_sub_returns hleft hright
  | mul _ _ ihl ihr =>
      obtain ⟨_, hl, hr⟩ := keepsExact_binary.mp kept
      refine ofTree_binary_returns kept (ihl hl) (ihr hr) ?_
      intro left right hleft hright h
      exact combined_returns h fun _ => exactBinary_mul_returns hleft hright
  | pow _ hx hk ihl =>
      obtain ⟨_, hl, _⟩ := keepsExact_binary.mp kept
      refine ofTree_binary_returns kept (ihl hl) (ofNumeral_returns hx hk) ?_
      rintro left right hleft ⟨value, _⟩ h
      rw [← value] at hx hk
      exact combined_returns h (exactBinary_pow_returns hleft hx hk)

/-! ### A tree with two roots -/

theorem rootOfNat_two : rootOfNat 2 = (1, 2) := by
  have twos : twoPart 2 = (1, 1) := by decide +kernel
  have rest : trialFactors 3 1 (by decide) = [] := by
    rw [trialFactors, dif_neg (by decide), if_neg (by decide)]
  have factors : primeFactors (2 : Nat) = [2] := by
    rw [primeFactors, Int.natAbs_natCast, twos]
    show List.replicate 1 2 ++ (trialFactors 3 1 _).map Int.ofNat = _
    rw [rest]
    rfl
  rw [rootOfNat, factors]
  decide +kernel

/-- Radians, and the default limit for exact roots. -/
def sqrtTwoOptions : Options := ⟨false, .ok 1000000000000⟩

/-- The tree of `√2`. -/
def sqrtTwo : Tree := .call "sqrt" (.number (.ofInt 2))

/-- The tree of `(1 + √2) * √2`. -/
def sqrtTwoTree : Tree := .binary .mul (.binary .add (.number (.ofInt 1)) sqrtTwo) sqrtTwo

theorem ofTree_sqrtTwo : Returns (ofTree .machine [] sqrtTwoOptions sqrtTwo) fun w =>
    w.value = (Double.ofInt 2).sqrt ∧ w.exact = some ⟨[⟨1, 2⟩], 0⟩ := by
  have exact : exactCall sqrtTwoOptions "sqrt" (.ofInt 2) = .ok (some ⟨[⟨1, 2⟩], 0⟩) := by
    show some <$> RadicalSum.ofTerms [⟨.int (1 * (rootOfNat 2).1), .int (rootOfNat 2).2⟩] 0 = _
    rw [rootOfNat_two]
    rfl
  obtain ⟨hx, hn⟩ := Double.ofInt_exact (n := 2) (by decide)
  apply (ofNumeral_returns (n := 2) hx hn).bind
  rintro w ⟨value, _⟩
  rw [called, value, exact]
  decide +kernel

theorem keepsExact_sqrtTwoTree : KeepsExact .machine [] sqrtTwoOptions sqrtTwoTree := by
  obtain ⟨⟨_, _⟩, hw, rfl, rfl⟩ := ofTree_sqrtTwo
  have root : KeepsExact .machine [] sqrtTwoOptions sqrtTwo :=
    keepsExact_call.mpr ⟨⟨_, hw, rfl⟩, List.forall_mem_singleton.mpr (by decide +kernel)⟩
  have one : KeepsExact .machine [] sqrtTwoOptions (.number (.ofInt 1)) :=
    List.forall_mem_singleton.mpr (by decide +kernel)
  refine keepsExact_binary.mpr ⟨?_, keepsExact_binary.mpr ⟨?_, one, root⟩, root⟩
  · rw [ofTree, hw, ofTree, hw]
    decide +kernel
  · rw [ofTree, hw]
    decide +kernel

theorem integerRadical_sqrtTwoTree : sqrtTwoTree.IntegerRadical ((1 + √2) * √2) := by
  obtain ⟨hx, one⟩ := Double.ofInt_exact (n := 1) (by decide)
  obtain ⟨hy, two⟩ := Double.ofInt_exact (n := 2) (by decide)
  have root : sqrtTwo.IntegerRadical √2 := by
    have h := Tree.IntegerRadical.root (m := 2) hy two
    rwa [Nat.cast_ofNat] at h
  have unit := Tree.IntegerRadical.number (n := 1) hx one (by decide)
  rw [Nat.cast_one] at unit
  exact (unit.add root).mul root

theorem ofTree_exact_sqrtTwoTree :
    sqrtTwoTree.IntegerRadical ((1 + √2) * √2) ∧
    KeepsExact .machine [] sqrtTwoOptions sqrtTwoTree ∧
    Returns (ofTree .machine [] sqrtTwoOptions sqrtTwoTree) fun w =>
      ∃ s ∈ w.exact, s.Denotes ((1 + √2) * √2) :=
  ⟨integerRadical_sqrtTwoTree, keepsExact_sqrtTwoTree,
    ofTree_exact integerRadical_sqrtTwoTree keepsExact_sqrtTwoTree⟩

end Evaluation

end Surd
