import Surd.Proofs.Double.Finite
import Surd.Proofs.Number.Value
import Surd.Proofs.Returns

/-!
# Numbers that have a double

Arithmetic of numbers fails in one way only: a whole number has no double. The numbers that have one can be added,
multiplied and divided by any double but zero. Normalisation keeps a number finite, and it makes nothing zero that is
not negligible.
-/

namespace Surd.Number

variable {a b : Number} {x : Double}

/-! ## Doubles of numbers -/

/-- The number becomes a double where one is needed. -/
def HasDouble (a : Number) : Prop := Returns a.toDouble fun _ => True

theorem hasDouble_real (x : Double) : HasDouble (real x) := .ok trivial

theorem toDouble_returnsUnless (a : Number) : ReturnsUnless .integerTooLarge a.toDouble fun _ => True := by
  cases a with
  | real x => exact .ok trivial
  | int n =>
      rw [toDouble]
      split
      · exact .inr rfl
      · exact .ok trivial

theorem hasDouble_of_isFinite (h : a.isFinite = true) : HasDouble a := by
  cases a with
  | real x => exact hasDouble_real x
  | int n =>
      have fits : (Double.ofInt n).isInfinite = false := Bool.not_eq_eq_eq_not.mp h
      rw [HasDouble, toDouble, fits]
      exact .ok trivial

/-! ## Arithmetic -/

section

variable {exact : Int → Int → Int} {rounded : Double → Double → Double}

/-- Two whole numbers stay whole; otherwise both operands become doubles. -/
theorem combine_cases (exact : Int → Int → Int) (rounded : Double → Double → Double) (a b : Number) :
    (∃ n, combine exact rounded a b = .ok (int n)) ∨
      combine exact rounded a b = do return real (rounded (← a.toDouble) (← b.toDouble)) := by
  cases a with
  | real x => exact .inr rfl
  | int m =>
      cases b with
      | real y => exact .inr rfl
      | int n => exact .inl ⟨exact m n, rfl⟩

theorem combine_returnsUnless (a b : Number) :
    ReturnsUnless .integerTooLarge (combine exact rounded a b) fun _ => True := by
  obtain ⟨n, whole⟩ | mixed := combine_cases exact rounded a b
  · rw [whole]
    exact .ok trivial
  · rw [mixed]
    apply (toDouble_returnsUnless a).bind
    intro x _
    apply (toDouble_returnsUnless b).bind
    intro y _
    exact .ok trivial

theorem combine_returns (ha : a.HasDouble) (hb : b.HasDouble) :
    Returns (combine exact rounded a b) fun _ => True := by
  obtain ⟨n, whole⟩ | mixed := combine_cases exact rounded a b
  · rw [whole]
    exact .ok trivial
  · rw [mixed]
    apply Returns.bind ha
    intro x _
    apply Returns.bind hb
    intro y _
    exact .ok trivial

/-- With a double on the right the result is a double. -/
theorem combine_real_eq (ha : a.HasDouble) (y : Double) :
    Returns (combine exact rounded a (real y)) fun b => ∃ z, b = real z := by
  have mixed : combine exact rounded a (real y) = a.toDouble >>= fun x => .ok (real (rounded x y)) := by
    cases a <;> rfl
  rw [mixed]
  apply Returns.bind ha
  intro x _
  exact .ok ⟨_, rfl⟩

theorem combine_real_returns (ha : a.HasDouble) (y : Double) :
    Returns (combine exact rounded a (real y)) HasDouble := by
  apply (combine_real_eq ha y).mono
  rintro _ ⟨z, rfl⟩
  exact hasDouble_real z

end

theorem zero_add_int (n : Int) : add 0 (int n) = .ok (int n) :=
  congrArg (fun m => Except.ok (int m)) (Int.zero_add n)

theorem zero_add_returns (h : a.HasDouble) : Returns (add 0 a) HasDouble := by
  cases a with
  | real x => exact .ok (hasDouble_real _)
  | int n =>
      rw [zero_add_int]
      exact .ok h

theorem div_real_returns (ha : a.HasDouble) {y : Double} (hy : doubleIsZero y = false) :
    Returns (a.div (real y)) HasDouble := by
  have mixed : a.div (real y) = a.toDouble >>= fun x =>
      if doubleIsZero y then .error .doubleDivisionByZero else .ok (real (x.div y)) := by
    cases a with
    | int m => rfl
    | real x => rfl
  rw [mixed, hy]
  apply Returns.bind ha
  intro x _
  exact .ok (hasDouble_real _)

/-! ## Finite numbers -/

/-- The number is no infinity and not "not a number". -/
def Bounded : Number → Prop
  | int _ => True
  | real x => x.isFinite = true

instance : DecidablePred Bounded
  | int _ => .isTrue trivial
  | real x => inferInstanceAs (Decidable (x.isFinite = true))

theorem bounded_int (n : Int) : (int n).Bounded := trivial

theorem bounded_real (hx : x.isFinite = true) : (real x).Bounded := hx

theorem bounded_abs (h : a.Bounded) : a.abs.Bounded := by
  cases a with
  | int n => exact trivial
  | real x => exact (Double.isFinite_abs x).trans h

theorem toReal_abs (a : Number) : a.abs.toReal = |a.toReal| := by
  cases a with
  | int n =>
      show (((n.natAbs : Nat) : Int) : ℝ) = |(n : ℝ)|
      rw [Int.natCast_natAbs, Int.cast_abs]
  | real x => exact Double.toReal_abs x

/-- Numbers that are no infinities compare as the real numbers they are, whole numbers and doubles with each other. -/
theorem compare?_of_bounded (ha : a.Bounded) (hb : b.Bounded) : a.compare? b = some (compare a.toReal b.toReal) := by
  cases a with
  | int m =>
      cases b with
      | int n =>
          show some (compare m n) = some (compare (m : ℝ) n)
          rw [← cmp_eq_compare, ← cmp_eq_compare, Int.cast_strictMono.cmp_map_eq]
      | real y =>
          rw [compare?, Double.compareInt?_of_isFinite hb, Option.map_some, ← cmp_eq_compare, cmp_swap, cmp_eq_compare]
          rfl
  | real x =>
      cases b with
      | int n => exact Double.compareInt?_of_isFinite ha n
      | real y => exact Double.compare?_of_isFinite ha hb

theorem lt_iff (ha : a.Bounded) (hb : b.Bounded) : a.lt b = true ↔ a.toReal < b.toReal := by
  rw [lt, compare?_of_bounded ha hb, beq_iff_eq, Option.some.injEq, compare_lt_iff_lt]

theorem equal_iff (ha : a.Bounded) (hb : b.Bounded) : a.equal b = true ↔ a.toReal = b.toReal := by
  rw [equal, compare?_of_bounded ha hb, beq_iff_eq, Option.some.injEq, compare_eq_iff_eq]

theorem le_iff (ha : a.Bounded) (hb : b.Bounded) : a.le b = true ↔ a.toReal ≤ b.toReal := by
  rw [le, Bool.or_eq_true, ← equal, lt_iff ha hb, equal_iff ha hb, le_iff_lt_or_eq]

theorem isNegligible_iff (h : a.Bounded) : a.isNegligible = true ↔ |a.toReal| < tolerance.toReal := by
  rw [isNegligible, lt_iff (bounded_abs h) (bounded_real tolerance_isFinite), toReal_abs]
  rfl

theorem isNegligible_real (hx : x.isFinite = true) : (real x).isNegligible = true ↔ |x.toReal| < tolerance.toReal :=
  isNegligible_iff hx

theorem isZero_iff (h : a.Bounded) : a.isZero = true ↔ a.toReal = 0 :=
  (equal_iff h (bounded_int 0)).trans (Eq.congr_right Int.cast_zero)

theorem isZero_real (hx : x.isFinite = true) : (real x).isZero = true ↔ x.toReal = 0 := isZero_iff hx

theorem isNegative_real (hx : x.isFinite = true) : (real x).isNegative = true ↔ x.toReal < 0 :=
  (lt_iff (bounded_real hx) (bounded_int 0)).trans (iff_of_eq (congrArg (x.toReal < ·) Int.cast_zero))

theorem isFinite_int {n : Int} (h : (Double.ofInt n).isFinite = true) : (int n).isFinite = true :=
  congrArg not (Double.isInfinite_of_isFinite h)

theorem zero_add_isFinite (h : a.isFinite = true) : Returns (add 0 a) fun b => b.isFinite = true := by
  cases a with
  | real x =>
      refine .ok ?_
      obtain ⟨hzero, value⟩ := Double.ofInt_exact (n := 0) (by decide)
      refine (Double.add_of_eq hzero h h ?_).1
      rw [value, Int.cast_zero, zero_add]
  | int n =>
      rw [zero_add_int]
      exact .ok h

/-- A finite number times minus one is finite. -/
theorem mul_neg_one_isFinite (h : a.isFinite = true) :
    Returns (a.mul (int (-1))) fun b => b.isFinite = true := by
  cases a with
  | real x =>
      refine .ok ?_
      obtain ⟨hone, value⟩ := Double.ofInt_exact (n := -1) (by decide)
      refine (Double.mul_of_eq h hone ((Double.isFinite_neg x).trans h) ?_).1
      rw [value, Double.toReal_neg]
      push_cast
      ring
  | int n =>
      rw [mul_int, Int.mul_neg_one]
      refine .ok ?_
      rw [isFinite, Double.isInfinite_ofInt_neg]
      exact h

/-- Normalisation leaves a double alone or finds the whole number that it rounds to. -/
theorem normalize_real_cases (x : Double) : normalize (real x) = real x ∨
    ∃ n : Int, normalize (real x) = int n ∧ n.natAbs < 2 ^ 53 ∧ x.round? = some n ∧
      (x.sub (.ofInt n)).abs.compare?
        (tolerance.mul (if (Double.ofInt 1).compare? x.abs == some .lt then x.abs else .ofInt 1)) = some .lt := by
  simp only [normalize]
  cases rounded : x.round? with
  | none => exact .inl rfl
  | some n =>
      by_cases near : ((x.sub (.ofInt n)).abs.compare?
          (tolerance.mul (if (Double.ofInt 1).compare? x.abs == some .lt then x.abs else .ofInt 1)) == some .lt) =
            true ∧ n.natAbs < 2 ^ 53
      · exact .inr ⟨n, if_pos near, near.2, rfl, beq_iff_eq.mp near.1⟩
      · exact .inl (if_neg near)

theorem isFinite_normalize (h : a.isFinite = true) : a.normalize.isFinite = true := by
  cases a with
  | int n => exact h
  | real x =>
      obtain same | ⟨n, whole, small, _⟩ := normalize_real_cases x
      · rw [same]
        exact h
      · rw [whole]
        exact isFinite_int (Double.ofInt_exact small).1

theorem hasDouble_abs (h : a.isFinite = true) : a.abs.HasDouble := by
  cases a with
  | real x => exact hasDouble_real _
  | int n =>
      apply hasDouble_of_isFinite
      obtain same | opposite : ((n.natAbs : Nat) : Int) = n ∨ ((n.natAbs : Nat) : Int) = -n := by omega
      · rw [abs_int, same]
        exact h
      · rw [abs_int, opposite, isFinite, Double.isInfinite_ofInt_neg]
        exact h

/-! ## Roots and logarithms -/

/-- The root of a natural number needs nothing but its double. -/
theorem sqrt_natCast (n : Nat) : (int n).sqrt =
    if (int n).isFinite then .ok (Double.ofInt n).sqrt else .error .integerTooLarge := by
  have sign : ((Double.ofInt n).compareInt? 0 == some .lt) = false :=
    beq_eq_false_iff_ne.mpr (Double.compareInt?_ofInt n)
  rw [sqrt, toDouble, isFinite]
  cases (Double.ofInt n).isInfinite with
  | true => rfl
  | false =>
      show (if ((Double.ofInt n).compareInt? 0 == some .lt) then _ else _) = _
      rw [sign]
      rfl

/-- What is not at most one has a logarithm. -/
theorem logarithm_returns (h : a.le 1 = false) (f : Double → Double) :
    Returns (a.logarithm f) fun _ => True := by
  cases a with
  | int n =>
      have above : ¬n ≤ 0 := by
        have h : ((int n).lt (int 1) || (int n).equal (int 1)) = false := h
        rw [lt_int, equal_int, Bool.or_eq_false_iff, decide_eq_false_iff_not] at h
        omega
      rw [logarithm, if_neg above]
      dsimp only
      split
      · exact .ok trivial
      · exact .ok trivial
  | real x =>
      have h : (x.compareInt? 1 == some .lt || x.compareInt? 1 == some .eq) = false := h
      cases x with
      | nan => exact .ok trivial
      | infinite s =>
          cases s with
          | true => exact absurd h (by decide)
          | false => exact .ok trivial
      | finite s m e fits =>
          rw [Double.compareInt?_of_isFinite rfl, Bool.or_eq_false_iff, beq_eq_false_iff_ne, beq_eq_false_iff_ne, Ne,
            Ne, Option.some.injEq, Option.some.injEq, compare_lt_iff_lt, compare_eq_iff_eq, Int.cast_one] at h
          have above : (Double.finite s m e fits).compareInt? 0 = some .gt := by
            rw [Double.compareInt?_of_isFinite rfl, Option.some.injEq, compare_gt_iff_gt, Int.cast_zero]
            exact zero_lt_one.trans_le (not_lt.mp h.1)
          rw [logarithm, above]
          exact .ok trivial

end Surd.Number
