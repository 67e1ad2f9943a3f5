import Surd.Proofs.Evaluation.Exact
import Surd.Proofs.Radical.Finite
import Surd.Sketch

/-!
# Finite exact sides

Every rule of evaluation is its rule on doubles with an exact side added, and an exact side that is there is a finite
canonical sum. Sums, differences, quotients by a number and roots add their exact sides without a fault. A product or a
power can meet a whole number that has no double; then it has no worth at all.
-/

namespace Surd.Evaluation

variable {lib : Elementary} {values : Entries String Number} {options : Options}
variable {left right w : Worth} {o o' : Option RadicalSum} {s : RadicalSum} {x y : Double}

/-- What is there is canonical. -/
def Canonical (o : Option RadicalSum) : Prop := ∀ s ∈ o, s.Canonical

/-- What is there is canonical and finite. -/
def Finite (o : Option RadicalSum) : Prop := ∀ s ∈ o, s.Finite

theorem canonical_none : Canonical none := by
  intro s hs
  cases hs

theorem canonical_some (h : s.Canonical) : Canonical (some s) := by
  rintro _ ⟨⟩
  exact h

theorem finite_none : Finite none := by
  intro s hs
  cases hs

theorem finite_some (h : s.Finite) : Finite (some s) := by
  rintro _ ⟨⟩
  exact h

theorem finite_filter (h : Canonical o) : Finite (o.filter RadicalSum.isFinite) := by
  intro s hs
  obtain ⟨present, finite⟩ := Option.filter_eq_some_iff.mp hs
  exact ⟨h s present, finite⟩

theorem returns_canonical_some {e : Except Fault RadicalSum} (h : Returns e RadicalSum.Canonical) :
    Returns (some <$> e) Canonical :=
  (h.mono fun _ => canonical_some).map

theorem returnsUnless_canonical_some {e : Except Fault RadicalSum}
    (h : ReturnsUnless .integerTooLarge e RadicalSum.Canonical) :
    ReturnsUnless .integerTooLarge (some <$> e) Canonical := by
  obtain returns | rfl := h
  · exact .inl (returns_canonical_some returns)
  · exact .inr rfl

/-! ## Sums -/

/-- A finite sum takes a double into its constant. -/
theorem exactSum_double (hs : s.Finite) (y : Double) :
    Returns (do RadicalSum.ofTerms s.terms (← s.constant.add (.real y)) : Except Fault (Option RadicalSum))
      Canonical := by
  apply (Number.combine_real_returns hs.constant y).bind
  intro k _
  apply (RadicalSum.ofTerms_of_finite hs k).bind
  intro s' h
  exact .ok (canonical_some h)

theorem exactSum_canonical (h : Finite o) (h' : Finite o') (x y : Double) :
    Returns (exactSum o x o' y) Canonical := by
  cases o with
  | none =>
      cases o' with
      | none => exact .ok canonical_none
      | some t => exact exactSum_double (h' t rfl) x
  | some s =>
      cases o' with
      | none => exact exactSum_double (h s rfl) y
      | some t => exact returns_canonical_some (RadicalSum.add_of_finite (h s rfl) (h' t rfl))

theorem mapM_negate_finite (h : Finite o) : Returns (o.mapM RadicalSum.negate) Finite := by
  cases o with
  | none => exact .ok finite_none
  | some s =>
      rw [Option.mapM_some]
      exact ((RadicalSum.negate_of_finite (h s rfl)).mono fun _ => finite_some).map

/-! ## Powers -/

/-- The test of a power is done once the bound is known. -/
theorem powerFits_of_bound (lib : Elementary) (b : Number) (y : Double) : Returns (do
    if b.le 1 then return true
    let size ← (Number.real y).mul (.real (← b.logarithm lib.log))
    return size.lt (.real (← (Number.real Double.greatest).logarithm lib.log)) : Except Fault Bool)
      fun _ => True := by
  cases small : b.le 1 with
  | true => exact .ok trivial
  | false =>
      have greatest : (Number.real Double.greatest).logarithm lib.log = .ok (lib.log Double.greatest) := by
        have above : Double.greatest.compareInt? 0 = some .gt := by decide +kernel
        rw [Number.logarithm, above]
        rfl
      show Returns (b.logarithm lib.log >>= fun l => (Number.real y).mul (.real l) >>= fun size =>
        (Number.real Double.greatest).logarithm lib.log >>= fun g => .ok (size.lt (.real g))) _
      apply (Number.logarithm_returns small lib.log).bind
      intro l _
      apply (Number.combine_real_returns (Number.hasDouble_real y) l).bind
      intro size _
      rw [greatest]
      exact .ok trivial

theorem bound_returnsUnless (hs : s.Canonical) : ReturnsUnless .integerTooLarge (bound s) fun _ => True := by
  have step : ∀ t ∈ s.terms, ∀ acc : Number, True → ReturnsUnless .integerTooLarge
      (do acc.add (← t.coefficient.abs.mul (.real (← t.radicand.sqrt)))) fun _ => True := by
    intro t ht acc _
    obtain ⟨r, _, hr⟩ := hs.squareFree t ht
    have root : ReturnsUnless .integerTooLarge t.radicand.sqrt fun _ => True := by
      rw [hr, Number.sqrt_natCast]
      split
      · exact .ok trivial
      · exact .inr rfl
    apply root.bind
    intro q _
    apply (Number.combine_returnsUnless t.coefficient.abs (.real q)).bind
    intro p _
    exact Number.combine_returnsUnless acc p
  apply (ReturnsUnless.foldlM step trivial).bind
  intro total _
  exact Number.combine_returnsUnless s.constant.abs total

/-- Where the radicands have doubles the bound is found. -/
theorem bound_returns (hs : s.Finite) (radicands : ∀ t ∈ s.terms, t.radicand.isFinite = true) :
    Returns (bound s) fun _ => True := by
  obtain ⟨constant, coefficient⟩ := RadicalSum.isFinite_iff.mp hs.isFinite
  have step : ∀ t ∈ s.terms, ∀ acc : Number, acc.HasDouble →
      Returns (do acc.add (← t.coefficient.abs.mul (.real (← t.radicand.sqrt)))) Number.HasDouble := by
    intro t ht acc hacc
    obtain ⟨r, _, hr⟩ := hs.canonical.squareFree t ht
    have root : Returns t.radicand.sqrt fun _ => True := by
      rw [hr, Number.sqrt_natCast, ← hr, radicands t ht]
      exact .ok trivial
    apply root.bind
    intro q _
    apply (Number.combine_real_eq (Number.hasDouble_abs (coefficient t ht)) q).bind
    rintro _ ⟨p, rfl⟩
    exact Number.combine_real_returns hacc p
  apply (Returns.foldlM_keeps step (Number.hasDouble_of_isFinite rfl)).bind
  intro total htotal
  exact Number.combine_returns (Number.hasDouble_abs constant) htotal

/-- The power of a sum where the test allows it. -/
def guardedPower (lib : Elementary) (s : RadicalSum) (y : Double) (n : Nat) : Except Fault (Option RadicalSum) := do
  if ← powerFits lib s (.real y) then some <$> s.power (.int n) else return none

theorem guardedPower_canonical (lib : Elementary) (hs : s.Finite) (y : Double) (n : Nat) :
    ReturnsUnless .integerTooLarge (guardedPower lib s y n) Canonical := by
  have fits : ReturnsUnless .integerTooLarge (powerFits lib s (.real y)) fun _ => True :=
    (bound_returnsUnless hs.canonical).bind fun b _ => .inl (powerFits_of_bound lib b y)
  apply fits.bind
  intro fits _
  cases fits with
  | true => exact returnsUnless_canonical_some (RadicalSum.power_canonical hs.canonical n)
  | false => exact .ok canonical_none

/-- Over the whole numbers only a radicand without a double is in the way of a power. -/
theorem guardedPower_returns (lib : Elementary) (hs : s.Finite) (integral : s.Integral)
    (radicands : ∀ t ∈ s.terms, t.radicand.isFinite = true) (y : Double) (n : Nat) :
    Returns (guardedPower lib s y n) fun _ => True := by
  have fits : Returns (powerFits lib s (.real y)) fun _ => True :=
    (bound_returns hs radicands).bind fun b _ => powerFits_of_bound lib b y
  apply fits.bind
  intro fits _
  cases fits with
  | true => exact ((RadicalSum.power_returns ⟨integral, rfl⟩ n).mono fun _ _ => trivial).map
  | false => exact .ok trivial

/-- The exact side of a power, by what stands on the left and the test of the exponent. -/
theorem exactBinary_pow_eq (lib : Elementary) (left right : Worth) :
    exactBinary lib .pow left right = .ok none ∨
      ∃ s ∈ left.exact, ∃ n, exactBinary lib .pow left right = guardedPower lib s right.value n := by
  cases hs : left.exact with
  | none =>
      rw [exactBinary, hs]
      exact .inl rfl
  | some s =>
      cases test : right.value.compareInt? 0 != some .lt && right.value.isWhole with
      | false =>
          simp only [exactBinary, hs, test]
          exact .inl rfl
      | true =>
          obtain ⟨sign, whole⟩ := Bool.and_eq_true_iff.mp test
          obtain ⟨finite, n, value⟩ := Double.exists_nat_of_isWhole whole (bne_iff_ne.mp sign)
          refine .inr ⟨s, rfl, n, ?_⟩
          simp only [exactBinary, hs, test, (Number.isNat_real finite value).truncate]
          rfl

/-! ## Operations -/

/-- What can go wrong beside the doubles: in a product of two exact sides that are not both over the whole numbers, or in
a power of one that is not, or has a radicand without a double, a whole number has no double. -/
def Overflows (lib : Elementary) (op : BinaryOp) (left right : Worth) : Prop :=
  exactBinary lib op left right = .error .integerTooLarge ∧
    ((op = .mul ∧ ∃ s ∈ left.exact, ∃ t ∈ right.exact, ¬(s.Integral ∧ t.Integral)) ∨
      (op = .pow ∧ ∃ s ∈ left.exact, s.Integral → ∃ t ∈ s.terms, t.radicand.isFinite = false))

theorem exactBinary_sub_canonical (hl : Finite left.exact) (hr : Finite right.exact) :
    Returns (exactBinary lib .sub left right) Canonical := by
  apply (mapM_negate_finite hr).bind
  intro opposite ho
  exact exactSum_canonical hl ho _ _

theorem exactBinary_div_canonical (hl : Finite left.exact) (hy : Number.doubleIsZero right.value = false) :
    Returns (exactBinary lib .div left right) Canonical := by
  rw [exactBinary]
  split
  · rename_i s hs
    split
    · exact .ok canonical_none
    · exact returns_canonical_some (RadicalSum.divide_real_of_finite (hl s hs) hy)
  · exact .ok canonical_none

theorem exactBinary_mul_cases (hl : Finite left.exact) (hr : Finite right.exact) :
    Returns (exactBinary lib .mul left right) Canonical ∨ Overflows lib .mul left right := by
  cases hs : left.exact with
  | none =>
      cases ht : right.exact with
      | none =>
          rw [exactBinary, hs, ht]
          exact .inl (.ok canonical_none)
      | some t =>
          rw [exactBinary, hs, ht]
          exact .inl (returns_canonical_some (RadicalSum.scale_real_of_finite (hr t ht) left.value))
  | some s =>
      cases ht : right.exact with
      | none =>
          rw [exactBinary, hs, ht]
          exact .inl (returns_canonical_some (RadicalSum.scale_real_of_finite (hl s hs) right.value))
      | some t =>
          have product : exactBinary lib .mul left right = some <$> s.multiply t := by rw [exactBinary, hs, ht]
          have canonical := RadicalSum.multiply_canonical (hl s hs).canonical (hr t ht).canonical
          obtain returns | fault := canonical
          · rw [product]
            exact .inl (returns_canonical_some returns)
          · refine .inr ⟨by rw [product, fault]; rfl, .inl ⟨rfl, s, hs, t, ht, ?_⟩⟩
            rintro ⟨integral, integral'⟩
            have succeeds := RadicalSum.multiply_returns ⟨integral, rfl⟩ ⟨integral', rfl⟩
            rw [fault] at succeeds
            exact Returns.not_error succeeds

theorem exactBinary_pow_cases (hl : Finite left.exact) :
    Returns (exactBinary lib .pow left right) Canonical ∨ Overflows lib .pow left right := by
  obtain dropped | ⟨s, hs, n, power⟩ := exactBinary_pow_eq lib left right
  · rw [dropped]
    exact .inl (.ok canonical_none)
  · obtain returns | fault := guardedPower_canonical lib (hl s hs) right.value n
    · rw [power]
      exact .inl returns
    · refine .inr ⟨power.trans fault, .inr ⟨rfl, s, hs, fun integral => ?_⟩⟩
      by_contra bounded
      have radicands : ∀ t ∈ s.terms, t.radicand.isFinite = true := by
        intro t ht
        by_contra large
        exact bounded ⟨t, ht, (Bool.not_eq_true _).mp large⟩
      have succeeds := guardedPower_returns lib (hl s hs) integral radicands right.value n
      rw [fault] at succeeds
      exact Returns.not_error succeeds

/-- The exact side of a binary operation is canonical, or it overflows. -/
theorem exactBinary_cases (hl : Finite left.exact) (hr : Finite right.exact) (op : BinaryOp)
    (hdiv : op = .div → Number.doubleIsZero right.value = false) :
    Returns (exactBinary lib op left right) Canonical ∨ Overflows lib op left right := by
  cases op with
  | add => exact .inl (exactSum_canonical hl hr _ _)
  | sub => exact .inl (exactBinary_sub_canonical hl hr)
  | mul => exact exactBinary_mul_cases hl hr
  | div => exact .inl (exactBinary_div_canonical hl (hdiv rfl))
  | pow => exact exactBinary_pow_cases hl
  | other symbol => exact .inl (.ok canonical_none)

/-- The root that a function keeps exact is finite, if the limit for it is known where it is needed. -/
theorem exactCall_cases (options : Options) (name : String) (x : Double) :
    Returns (exactCall options name x) Finite ∨
      ∃ f, options.exactLimit = .error f ∧ exactCall options name x = .error f := by
  by_cases root : name = "sqrt"
  · rw [exactCall, if_pos root]
    cases test : x.isNaN || x.compareInt? 0 == some .lt || !x.isWhole with
    | true =>
        simp only [isExactRadicand, test]
        exact .inl (.ok finite_none)
    | false =>
        have asked : isExactRadicand options x = (Number.real x).le <$> options.exactLimit := by
          simp only [isExactRadicand, test]
          cases options.exactLimit <;> rfl
        rw [Bool.or_eq_false_iff, Bool.or_eq_false_iff, beq_eq_false_iff_ne, Bool.not_eq_false'] at test
        obtain ⟨⟨_, sign⟩, whole⟩ := test
        obtain ⟨finite, n, value⟩ := Double.exists_nat_of_isWhole whole sign
        rw [asked]
        cases options.exactLimit with
        | error f => exact .inr ⟨f, rfl, rfl⟩
        | ok limit =>
            refine .inl ?_
            show Returns (if (Number.real x).le limit then Radical.simplify (.real x) >>= fun r =>
              some <$> RadicalSum.ofTerms [⟨r.coefficient, r.radicand⟩] 0 else .ok none) Finite
            split
            · obtain ⟨r, simplified, sum⟩ := (RadicalSum.ofTerms_simplify_of_isFinite finite value).of_bind
              rw [simplified]
              exact (sum.mono fun _ => finite_some).map
            · exact .ok finite_none
  · rw [exactCall, if_neg root]
    exact .inl (.ok finite_none)

/-! ## Worths -/

/-- The computation of a worth is that of its double, and a finite exact side is added to it. -/
def Carries (e : Except Stop Worth) (z : Except Stop Double) : Prop :=
  ∃ o, Finite o ∧ e = (fun v => ⟨v, o⟩) <$> z

section

variable {e : Except Stop Worth} {z : Except Stop Double}

theorem Carries.of_ok (h : Carries e z) (he : e = .ok w) : z = .ok w.value ∧ Finite w.exact := by
  obtain ⟨o, ho, rfl⟩ := h
  obtain ⟨v, rfl, rfl⟩ := exists_of_map_eq_ok he
  exact ⟨rfl, ho⟩

theorem Carries.error (stop : Stop) : Carries (.error stop) (.error stop) := ⟨none, finite_none, rfl⟩

/-- What carries an exact side from a worth to the next one does so after what came before. -/
theorem Carries.bind {f : Worth → Except Stop Worth} {g : Double → Except Stop Double} {R : Worth → Prop}
    (h : Carries e z) (next : ∀ w, Finite w.exact → Carries (f w) (g w.value) ∨ R w) :
    Carries (e >>= f) (z >>= g) ∨ ∃ w, e = .ok w ∧ R w := by
  obtain ⟨o, ho, rfl⟩ := h
  cases z with
  | error stop => exact .inl (.error stop)
  | ok v => exact (next ⟨v, o⟩ ho).imp_right fun hr => ⟨_, rfl, hr⟩

end

/-- A computation of a double that may stop, after which an exact side is computed and the double is checked. -/
theorem carries_of_exact {z : Except Stop Double} {e : Except Fault (Option RadicalSum)} {R : Prop}
    {g : Option RadicalSum → Option RadicalSum} (hz : ∀ x, z = .ok x → Returns e (fun o => Finite (g o)) ∨ R) :
    Carries (do
      let result ← z
      let exact ← (e : Except Fault _)
      return ⟨← checked result, g exact⟩) (z >>= checked) ∨ (∃ x, z = .ok x) ∧ R := by
  cases z with
  | error stop => exact .inl (.error stop)
  | ok x =>
      obtain ⟨o, rfl, ho⟩ | hr := hz x rfl
      · refine .inl ⟨g o, ho, ?_⟩
        show (checked x >>= fun v => Except.ok (⟨v, g o⟩ : Worth)) = (fun v => (⟨v, g o⟩ : Worth)) <$> checked x
        cases checked x with
        | error stop => rfl
        | ok v => rfl
      · exact .inr ⟨⟨x, rfl⟩, hr⟩

/-- The exact side of a numeral is its whole number or its double. -/
theorem ofNumeral_carries (x : Double) : Carries (ofNumeral x) (checked x) := by
  rw [ofNumeral, checked]
  cases infinite : x.isInfinite with
  | true => exact .error _
  | false =>
      cases whole : x.isWhole with
      | false =>
          refine ⟨none, finite_none, ?_⟩
          show (if x.isWhole then _ else _) = _
          rw [whole]
          rfl
      | true =>
          have finite := (Double.exists_of_isWhole whole).1
          obtain ⟨s, sum, hs⟩ := RadicalSum.ofTerms_nil_of_isFinite (k := .real x) finite
          refine ⟨some s, finite_some hs, ?_⟩
          show (if x.isWhole then _ else _) = _
          rw [whole, sum]
          rfl

/-- The double of a variable. -/
def decimalVariable (values : Entries String Number) (name : String) : Except Stop Double :=
  match values.get? name with
  | none => refuse (.undefinedVariables [name])
  | some a => (a.toDouble : Except Fault _)

/-- A variable has no exact side. -/
theorem ofVariable_carries (values : Entries String Number) (name : String) :
    Carries (ofVariable values name) (decimalVariable values name) := by
  refine ⟨none, finite_none, ?_⟩
  rw [ofVariable, decimalVariable]
  cases values.get? name with
  | none => rfl
  | some a =>
      dsimp only
      cases a.toDouble <;> rfl

theorem negated_carries (h : Finite w.exact) : Carries (negated w) (.ok w.value.neg) := by
  obtain ⟨o, opposite, ho⟩ := mapM_negate_finite h
  refine ⟨o, ho, ?_⟩
  rw [negated, opposite]
  rfl

/-- A binary operation carries an exact side, unless the exact side overflows after the doubles found no error. -/
theorem combined_carries (hl : Finite left.exact) (hr : Finite right.exact) (op : BinaryOp) :
    Carries (combined lib op left right) (decimalBinary lib op left.value right.value >>= checked) ∨
      (∃ x, decimalBinary lib op left.value right.value = .ok x) ∧ Overflows lib op left right := by
  apply carries_of_exact
  intro x hx
  refine (exactBinary_cases hl hr op ?_).imp_left fun returns => returns.mono fun o => finite_filter
  rintro rfl
  cases zero : Number.doubleIsZero right.value with
  | false => rfl
  | true =>
      rw [decimalBinary, zero] at hx
      cases hx

/-- A function carries an exact side, unless the limit for exact roots is missing. -/
theorem called_carries (options : Options) (name : String) (w : Worth) :
    Carries (called lib options name w) (decimalCall lib options.degrees name w.value >>= checked) ∨
      (∃ x, decimalCall lib options.degrees name w.value = .ok x) ∧
        ∃ f, options.exactLimit = .error f ∧ exactCall options name w.value = .error f :=
  carries_of_exact (g := id) fun _ _ => exactCall_cases options name w.value

/-! ## Trees -/

/-- A binary operation that has a worth has it from the worths of both operands. -/
theorem exists_of_worth_binary {op : BinaryOp} {l r : Sketch}
    (h : Sketch.worth lib values options (.binary op l r) = .ok w) :
    ∃ left right, l.worth lib values options = .ok left ∧ r.worth lib values options = .ok right ∧
      combined lib op left right = .ok w := by
  have plain : (do
      let left ← l.worth lib values options
      let right ← r.worth lib values options
      combined lib op left right) = .ok w := by
    cases l with
    | gap text =>
        cases text with
        | none => cases h
        | some text => cases h
    | number x => exact h
    | «variable» name => exact h
    | negate t => exact h
    | binary op l r => exact h
    | call f t => exact h
  obtain ⟨left, hl, h⟩ := exists_of_bind_eq_ok plain
  obtain ⟨right, hr, h⟩ := exists_of_bind_eq_ok h
  exact ⟨left, right, hl, hr, h⟩

/-- Whatever a tree with gaps, the named values and the options are, an exact side that evaluation returns is a
canonical sum, and its constant and all its coefficients have finite doubles. -/
theorem worth_canonical {t : Sketch} (h : t.worth lib values options = .ok w) :
    ∀ s ∈ w.exact, s.Canonical ∧ s.isFinite = true := by
  suffices finite : Finite w.exact by
    intro s hs
    exact ⟨(finite s hs).canonical, (finite s hs).isFinite⟩
  induction t generalizing w with
  | gap text => cases h
  | number x => exact ((ofNumeral_carries x).of_ok h).2
  | «variable» name => exact ((ofVariable_carries values name).of_ok h).2
  | negate t ih =>
      obtain ⟨operand, ht, h⟩ := exists_of_bind_eq_ok h
      exact ((negated_carries (ih ht)).of_ok h).2
  | binary op l r ihl ihr =>
      obtain ⟨left, right, hl, hr, h⟩ := exists_of_worth_binary h
      obtain carries | ⟨⟨x, hx⟩, fault, _⟩ := combined_carries (ihl hl) (ihr hr) op
      · exact (carries.of_ok h).2
      · rw [combined, hx, fault] at h
        cases h
  | call f t ih =>
      obtain ⟨argument, ht, h⟩ := exists_of_bind_eq_ok h
      obtain carries | ⟨⟨x, hx⟩, fault, _, missing⟩ := called_carries options f argument
      · exact (carries.of_ok h).2
      · rw [called, hx, missing] at h
        cases h

/-- The opposite of `√2`. -/
theorem worth_canonical_negatedRoot :
    ∃ w, Sketch.worth .machine [] sqrtTwoOptions (.negate (.ofTree sqrtTwo)) = .ok w ∧
      w.exact = some ⟨[⟨.int (-1), 2⟩], 0⟩ ∧ ∀ s ∈ w.exact, s.Canonical ∧ s.isFinite = true := by
  have opposite : Returns (Sketch.worth .machine [] sqrtTwoOptions (.negate (.ofTree sqrtTwo)))
      fun w => w.exact = some ⟨[⟨.int (-1), 2⟩], 0⟩ := by
    rw [Sketch.worth, Sketch.worth_ofTree]
    apply ofTree_sqrtTwo.bind
    rintro ⟨value, _⟩ ⟨_, rfl⟩
    exact ⟨_, rfl, rfl⟩
  obtain ⟨w, hw, exact⟩ := opposite
  exact ⟨w, hw, exact, worth_canonical hw⟩

end Surd.Evaluation
