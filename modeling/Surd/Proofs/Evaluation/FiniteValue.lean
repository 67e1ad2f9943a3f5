import Surd.Proofs.Evaluation.DecimalSide
import Surd.Proofs.Tree.Numerals
import Surd.Proofs.Entries

/-!
# Results are finite

An operation on finite doubles gives a finite double, an infinity, which is an overflow, or no double at all. It gives
"not a number" where a logarithm of the machine does; from logarithms that do not, and from names with finite values,
every result is finite (`isFinite_of_ofText`).
-/

namespace Surd

/-- The logarithms of a positive number are numbers. -/
structure Elementary.Regular (lib : Elementary) : Prop where
  log : ∀ x : Double, x.isFinite = true → x.compareInt? 0 = some .gt → lib.log x ≠ .nan
  log10 : ∀ x : Double, x.isFinite = true → x.compareInt? 0 = some .gt → lib.log10 x ≠ .nan

/-- Elementary functions that are right for a logarithm of one, an angle of zero and a power of one. -/
def Elementary.atUnit : Elementary where
  sin _ := .zero false
  cos _ := .ofInt 1
  tan _ := .zero false
  log _ := .zero false
  log10 _ := .zero false
  pow _ _ := .ofInt 1

theorem Elementary.regular_atUnit : atUnit.Regular where
  log _ _ _ := Double.noConfusion
  log10 _ _ _ := Double.noConfusion

/-- All names are bound to finite doubles. -/
def FiniteDoubles (values : Entries String Number) : Prop :=
  ∀ b ∈ values, ∃ x : Double, b.2 = .real x ∧ x.isFinite = true

namespace Evaluation

variable {lib : Elementary} {values : Entries String Number} {degrees : Bool} {x y z : Double}

theorem isFinite_of_checked (h : checked x = .ok y) (number : x ≠ .nan) : y.isFinite = true := by
  rw [checked] at h
  split_ifs at h with infinite
  · cases h
  · obtain rfl := Except.ok.inj h
    cases x with
    | nan => exact absurd rfl number
    | infinite => exact absurd rfl infinite
    | finite => rfl

theorem power_ne_nan (hx : x.isFinite = true) (hy : y.isFinite = true) (h : lib.power x y = .ok z) : z ≠ .nan := by
  cases x with
  | nan => cases hx
  | infinite => cases hx
  | finite s m d fits =>
      cases y with
      | nan => cases hy
      | infinite => cases hy
      | finite t n e fits' =>
          change (if (lib.pow _ _).isNaN then _ else _) = _ at h
          split_ifs at h with undefined
          rintro rfl
          exact undefined (by rw [Except.ok.inj h]; rfl)

theorem decimalBinary_ne_nan {op : BinaryOp} (hx : x.isFinite = true) (hy : y.isFinite = true)
    (h : decimalBinary lib op x y = .ok z) : z ≠ .nan := by
  cases op with
  | add =>
      obtain rfl := Except.ok.inj h
      exact Double.add_ne_nan hx hy
  | sub =>
      obtain rfl := Except.ok.inj h
      exact Double.add_ne_nan hx (by rwa [Double.isFinite_neg])
  | mul =>
      obtain rfl := Except.ok.inj h
      exact Double.mul_ne_nan hx hy
  | div =>
      unfold decimalBinary at h
      dsimp only at h
      split_ifs at h with zero
      · cases h
      · obtain rfl := Except.ok.inj h
        exact Double.div_ne_nan hx hy fun equal => zero (beq_iff_eq.mpr equal)
  | pow =>
      change decimalPower lib x y = .ok z at h
      unfold decimalPower at h
      split at h
      · rename_i power
        obtain rfl := Except.ok.inj h
        exact power_ne_nan hx hy power
      · cases h
      · cases h
  | other => cases h

theorem periodic_ne_nan {f : Double → Double} (number : x ≠ .nan) (h : (Number.real x).periodic f = .ok z) :
    z ≠ .nan := by
  have h : (if x.isNaN then .ok x
      else if x.isInfinite then .error .mathDomain
      else if (f x).isFinite then .ok (f x) else .error .mathDomain : Except Fault Double) = .ok z := h
  split_ifs at h with undefined infinite finite
  · cases x <;> cases undefined
    exact absurd rfl number
  · obtain rfl := Except.ok.inj h
    intro undefined
    rw [undefined] at finite
    cases finite

theorem trigonometric_ne_nan {name : String} (hx : x.isFinite = true)
    (h : Function.trigonometric lib name (.real x) degrees = .ok z) : z ≠ .nan := by
  -- Whatever the angle is in radians, it is a number.
  have chosen : ∀ y : Double, y ≠ .nan → Function.trigonometric lib name (.real y) false = .ok z → z ≠ .nan := by
    intro y number h
    change (if name = "sin" then _ else _) = _ at h
    split_ifs at h
    · exact periodic_ne_nan number (lift_eq_ok h)
    · exact periodic_ne_nan number (lift_eq_ok h)
    · exact periodic_ne_nan number (lift_eq_ok h)
    · cases h
  cases degrees with
  | true => exact chosen _ (Double.mul_ne_nan hx (by decide +kernel)) h
  | false => exact chosen x (Double.ne_nan_of_isFinite hx) h

theorem root_ne_nan (hx : x.isFinite = true) (h : Function.sqrt (.real x) = .ok z) : z ≠ .nan := by
  unfold Function.sqrt at h
  dsimp only at h
  split_ifs at h with negative
  · cases h
  · have root : (if x.compareInt? 0 == some .lt then .error .mathDomain else .ok x.sqrt : Except Fault Double) =
        .ok z := lift_eq_ok h
    split_ifs at root with sign
    obtain rfl := Except.ok.inj root
    exact Double.sqrt_ne_nan hx fun below => sign (beq_iff_eq.mpr below)

theorem logarithm_ne_nan {f : Double → Double} (hx : x.isFinite = true)
    (regular : ∀ y : Double, y.isFinite = true → y.compareInt? 0 = some .gt → f y ≠ .nan)
    (h : (Number.real x).logarithm f = .ok z) : z ≠ .nan := by
  rw [Number.logarithm] at h
  split_ifs at h with undefined sign infinite
  · cases x <;> cases undefined
    cases hx
  · rw [Double.isInfinite_of_isFinite hx] at infinite
    cases infinite
  · obtain rfl := Except.ok.inj h
    exact regular x hx (not_not.mp fun other => sign (bne_iff_ne.mpr other))

theorem function_ne_nan (regular : lib.Regular) {name : String} (hx : x.isFinite = true) {a : Number}
    (h : Function.apply lib name (.real x) degrees = .ok a) : ∃ y, a = .real y ∧ y ≠ .nan := by
  unfold Function.apply at h
  split_ifs at h
  · obtain ⟨y, root, rfl⟩ := exists_of_map_eq_ok h
    exact ⟨y, rfl, root_ne_nan hx root⟩
  · obtain rfl := Except.ok.inj h
    exact ⟨_, rfl, Double.ne_nan_of_isFinite ((Double.isFinite_abs x).trans hx)⟩
  · obtain ⟨y, result, rfl⟩ := exists_of_map_eq_ok h
    exact ⟨y, rfl, trigonometric_ne_nan hx result⟩
  · obtain ⟨y, result, rfl⟩ := exists_of_map_eq_ok h
    unfold Function.logarithm at result
    dsimp only at result
    split_ifs at result
    · cases result
    · cases result
    · exact ⟨y, rfl, logarithm_ne_nan hx regular.log10 (lift_eq_ok result)⟩
    · exact ⟨y, rfl, logarithm_ne_nan hx regular.log (lift_eq_ok result)⟩
  · cases h

theorem decimalCall_ne_nan (regular : lib.Regular) {name : String} (hx : x.isFinite = true)
    (h : decimalCall lib degrees name x = .ok z) : z ≠ .nan := by
  obtain ⟨a, h, double⟩ := exists_of_bind_eq_ok h
  obtain ⟨y, rfl, number⟩ := function_ne_nan regular hx h
  obtain rfl := Except.ok.inj (lift_eq_ok double)
  exact number

/-- What a tree is worth is finite. -/
theorem isFinite_of_decimalOf (regular : lib.Regular) (finite : FiniteDoubles values) {t : Tree} (numeric : t.Numeric)
    (h : decimalOf lib values degrees t = .ok z) : z.isFinite = true := by
  induction t generalizing z with
  | number x => exact isFinite_of_checked h numeric
  | «variable» name =>
      change decimalVariable values name = _ at h
      unfold decimalVariable at h
      split at h
      · cases h
      · rename_i a bound
        obtain ⟨x, ha, hx⟩ := finite _ (Entries.mem_of_get? bound)
        dsimp only at ha
        subst ha
        obtain rfl := Except.ok.inj (lift_eq_ok h)
        exact hx
  | negate t ih =>
      obtain ⟨x, hx, h⟩ := exists_of_bind_eq_ok h
      obtain rfl := Except.ok.inj h
      rw [Double.isFinite_neg]
      exact ih numeric hx
  | binary op l r ihl ihr =>
      obtain ⟨x, hx, h⟩ := exists_of_bind_eq_ok h
      obtain ⟨y, hy, h⟩ := exists_of_bind_eq_ok h
      obtain ⟨result, hresult, h⟩ := exists_of_bind_eq_ok h
      exact isFinite_of_checked h (decimalBinary_ne_nan (ihl numeric.1 hx) (ihr numeric.2 hy) hresult)
  | call f t ih =>
      obtain ⟨x, hx, h⟩ := exists_of_bind_eq_ok h
      obtain ⟨result, hresult, h⟩ := exists_of_bind_eq_ok h
      exact isFinite_of_checked h (decimalCall_ne_nan regular (ih numeric hx) hresult)

/-- A text has a value if it is accepted and its tree has this worth. -/
theorem exists_of_ofText_value {options : Options} {cs : List Char} {w : Worth}
    (h : ofText lib values options cs = .value w) :
    ∃ ts t, Parsed.ofText cs = .accepted ts t ∧ ofTree lib values options t = .ok w := by
  unfold ofText worth at h
  cases read : Parsed.ofText cs with
  | rejected ts r =>
      rw [read] at h
      cases h
  | accepted ts t =>
      rw [read] at h
      dsimp only at h
      split at h
      · rename_i w' evaluated
        obtain rfl := Result.value.inj h
        split at evaluated
        · cases evaluated
        · exact ⟨ts, t, rfl, mapError_eq_ok evaluated⟩
      · cases h

/-- The value of a text is finite, whatever the text is. -/
theorem isFinite_of_ofText (regular : lib.Regular) (finite : FiniteDoubles values) (options : Options) {limit : Number}
    (hlimit : options.exactLimit = .ok limit) {cs : List Char} {w : Worth}
    (h : ofText lib values options cs = .value w) : w.value.isFinite = true := by
  obtain ⟨ts, t, read, evaluated⟩ := exists_of_ofText_value h
  obtain carries | overflown := ofTree_carries hlimit t
  · exact isFinite_of_decimalOf regular finite (Parsed.numeric_of_ofText read) (carries.of_ok evaluated).1
  · rw [overflown.stopped] at evaluated
    cases evaluated

end Evaluation

end Surd
