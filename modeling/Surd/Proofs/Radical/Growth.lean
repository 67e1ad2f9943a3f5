import Surd.Proofs.Radical.Size
import Mathlib.Logic.Relation

/-!
# The growth of powers

`PowerState` has the registers of the loop that computes a power: the result so far, the base, and what is left of the
exponent. A pass of the loop takes one binary digit of the exponent. All along the result is bounded by one power of the
size of the sum and the base by another, and the exponents of these powers make up the whole with what is left
(`PowerState.Bounded`). So a power has that power of the size at most, and no register ever holds more, the bases that are
squared ahead included: the last square is not computed before its digit is there.
-/

namespace Surd.RadicalSum

theorem multiply_size_pow {a b : RadicalSum} {N : ℝ} {i j : ℕ} (ha : a.Integral) (hb : b.Integral)
    (hi : a.size ≤ N ^ i) (hj : b.size ≤ N ^ j) :
    Returns (a.multiply b) fun r => r.Integral ∧ r.size ≤ N ^ (i + j) := by
  apply (multiply_size ha hb).mono
  rintro r ⟨integral, bound⟩
  refine ⟨integral, bound.trans ?_⟩
  rw [pow_add]
  exact mul_le_mul hi hj b.size_nonneg (a.size_nonneg.trans hi)

/-! ## The loop -/

/-- The registers of the loop. -/
structure PowerState where
  result : RadicalSum
  base : RadicalSum
  exponent : ℕ

namespace PowerState

variable {p q : PowerState} {s : RadicalSum} {N : ℝ} {n : ℕ}

/-- The result after a pass. -/
def nextResult (p : PowerState) : Except Fault RadicalSum :=
  if p.exponent % 2 = 1 then p.result.multiply p.base else .ok p.result

/-- The base after a pass; the last pass leaves it. -/
def nextBase (p : PowerState) : Except Fault RadicalSum :=
  if p.exponent / 2 = 0 then .ok p.base else p.base.multiply p.base

/-- One pass of the loop. -/
def pass (p : PowerState) : Except Fault PowerState := do
  let result ← p.nextResult
  let base ← p.nextBase
  return ⟨result, base, p.exponent / 2⟩

/-- The loop goes on from the first state, and a pass leads to the second. -/
def Step (p q : PowerState) : Prop := p.exponent ≠ 0 ∧ p.pass = .ok q

/-- The registers before the loop. -/
def start (s : RadicalSum) (n : ℕ) : PowerState := ⟨ofConstant 1, s, n⟩

/-- The states that the loop comes to. -/
def Reaches : PowerState → PowerState → Prop := Relation.ReflTransGen Step

/-- The sums in the registers before and after a pass. -/
def held (p q : PowerState) : List RadicalSum := [p.result, p.base, q.result, q.base]

/-- The loop is one pass and then the rest of the loop. -/
theorem powerFrom_eq_pass (active : p.exponent ≠ 0) :
    powerFrom p.result p.base p.exponent = p.pass >>= fun q => powerFrom q.result q.base q.exponent := by
  rw [powerFrom_of_ne_zero active, pass, nextBase]
  show p.nextResult >>= _ = _
  cases p.nextResult with
  | error => rfl
  | ok result =>
      by_cases half : p.exponent / 2 = 0
      · rw [if_pos half]
        show (if p.exponent / 2 = 0 then _ else _) = powerFrom result p.base (p.exponent / 2)
        rw [if_pos half, half, powerFrom_zero]
      · rw [if_neg half]
        show (if p.exponent / 2 = 0 then _ else _) = _
        rw [if_neg half]
        cases p.base.multiply p.base <;> rfl

/-- From every state that the loop comes to it computes what it computes from the first. -/
theorem powerFrom_of_reaches (reached : Reaches p q) :
    powerFrom p.result p.base p.exponent = powerFrom q.result q.base q.exponent := by
  induction reached with
  | refl => rfl
  | tail _ step ih =>
      obtain ⟨active, passed⟩ := step
      rw [ih, powerFrom_eq_pass active, passed, ok_bind]

/-! ## What its registers hold -/

/-- The sizes in the registers are bounded by powers that make up the whole with what is left of the exponent. -/
structure Bounded (N : ℝ) (n : ℕ) (p : PowerState) : Prop where
  result : p.result.Integral
  base : p.base.Integral
  sizes : ∃ i j, p.result.size ≤ N ^ i ∧ p.base.size ≤ N ^ j ∧ i + j * p.exponent = n

theorem bounded_start (hs : s.Integral) (n : ℕ) : Bounded s.size n (start s n) :=
  ⟨integral_one, hs, 0, 1, size_one.le, (pow_one _).ge, by simp [start]⟩

theorem nextResult_size (hresult : p.result.Integral) (hbase : p.base.Integral) {i j : ℕ}
    (hi : p.result.size ≤ N ^ i) (hj : p.base.size ≤ N ^ j) :
    Returns p.nextResult fun r => r.Integral ∧ r.size ≤ N ^ (i + j * (p.exponent % 2)) := by
  rw [nextResult]
  split
  · rename_i odd
    rw [odd, mul_one]
    exact multiply_size_pow hresult hbase hi hj
  · rename_i even
    rw [Nat.mod_two_ne_one.mp even, mul_zero, add_zero]
    exact .ok ⟨hresult, hi⟩

theorem nextBase_size (hbase : p.base.Integral) {j : ℕ} (hj : p.base.size ≤ N ^ j) :
    Returns p.nextBase fun b => b.Integral ∧ b.size ≤ N ^ (if p.exponent / 2 = 0 then j else j + j) := by
  rw [nextBase]
  split
  · exact .ok ⟨hbase, hj⟩
  · exact multiply_size_pow hbase hbase hj hj

/-- The exponents of the bounds after a pass: they make up the whole again, and none is beyond it. -/
theorem exponents_after {i j e : ℕ} (active : e ≠ 0) (whole : i + j * e = n) :
    i + j * (e % 2) + (if e / 2 = 0 then j else j + j) * (e / 2) = n ∧ i ≤ n ∧ j ≤ n ∧
      (if e / 2 = 0 then j else j + j) ≤ n := by
  have digits := Nat.div_add_mod e 2
  have base : j ≤ j * e := Nat.le_mul_of_pos_right j (Nat.pos_of_ne_zero active)
  have split : j * e = j * (e % 2) + (j + j) * (e / 2) := by
    conv_lhs => rw [← digits]
    ring
  by_cases half : e / 2 = 0
  · rw [if_pos half]
    rw [half, mul_zero] at split ⊢
    omega
  -- The base is squared only where some of the exponent is left, so its square is a factor of the power.
  · have squared : j + j ≤ (j + j) * (e / 2) := Nat.le_mul_of_pos_right _ (Nat.pos_of_ne_zero half)
    rw [if_neg half]
    omega

/-- A pass keeps the bounds, and nothing in its registers is beyond the whole power. -/
theorem Bounded.pass (h : Bounded N n p) (active : p.exponent ≠ 0) :
    Returns p.pass fun q => Bounded N n q ∧ q.exponent = p.exponent / 2 ∧
      ∀ r ∈ held p q, r.Integral ∧ ∃ i ≤ n, r.size ≤ N ^ i := by
  obtain ⟨hresult, hbase, i, j, hi, hj, whole⟩ := h
  obtain ⟨whole', most, most_base, most_base'⟩ := exponents_after active whole
  apply (nextResult_size hresult hbase hi hj).bind
  rintro result ⟨hresult', hi'⟩
  apply (nextBase_size hbase hj).bind
  rintro base ⟨hbase', hj'⟩
  refine .ok ⟨⟨hresult', hbase', _, _, hi', hj', whole'⟩, rfl, ?_⟩
  simp only [held, List.forall_mem_cons]
  exact ⟨⟨hresult, i, most, hi⟩, ⟨hbase, j, most_base, hj⟩, ⟨hresult', _, by omega, hi'⟩,
    ⟨hbase', _, most_base', hj'⟩, List.forall_mem_nil _⟩

theorem Bounded.of_reaches (h : Bounded N n p) (reached : Reaches p q) : Bounded N n q := by
  induction reached with
  | refl => exact h
  | tail _ step ih =>
      obtain ⟨active, passed⟩ := step
      have kept := ih.pass active
      rw [passed, Returns.ok_iff] at kept
      exact kept.1

/-- The loop comes to an end. -/
theorem Bounded.exists_last (h : Bounded N n p) : ∃ last, Reaches p last ∧ last.exponent = 0 := by
  induction e : p.exponent using Nat.strong_induction_on generalizing p with
  | h e ih =>
      by_cases active : p.exponent = 0
      · exact ⟨p, .refl, active⟩
      · obtain ⟨q, passed, kept, halved, _⟩ := h.pass active
        obtain ⟨last, reached, done⟩ := ih q.exponent (by omega) kept rfl
        exact ⟨last, .head ⟨active, passed⟩ reached, done⟩

end PowerState

open PowerState (Reaches Step held)

variable {s : RadicalSum}

theorem pow_le_max_one_pow {N : ℝ} (hN : 0 ≤ N) {i n : ℕ} (hi : i ≤ n) : N ^ i ≤ max 1 N ^ n :=
  (pow_le_pow_left₀ hN (le_max_right 1 N) i).trans (pow_le_pow_right₀ (le_max_left 1 N) hi)

/-- What the test of a power asks of the size of a sum bounds all that comes up below the greatest double. -/
theorem max_one_pow_lt {N : ℝ} {n : ℕ} (fits : N ≤ 1 ∨ N ^ n < Double.greatest.toReal) :
    max 1 N ^ n < Double.greatest.toReal := by
  have one : (1 : ℝ) < Double.greatest.toReal :=
    (one_lt_zpow₀ one_lt_two (by decide)).trans Double.pow_lt_greatest
  obtain small | large := le_total N 1
  · rwa [max_eq_left small, one_pow]
  · rw [max_eq_right large]
    obtain small | fits := fits
    · rwa [le_antisymm small large, one_pow]
    · exact fits

/-- **The bound of a power is sound.** The loop comes to an end, and its result, the power, has that power of the size
of the sum at most. No pass of the loop finds or leaves more in its registers than that power or, where the size is below
one, than one. Where this is below the greatest double, what the registers hold is within the range of doubles. -/
theorem power_size (hs : s.Integral) (n : ℕ) :
    (∃ last, Reaches (.start s n) last ∧ last.exponent = 0 ∧ s.power (.int n) = .ok last.result ∧
      last.result.size ≤ s.size ^ n) ∧
    (∀ p q, Reaches (.start s n) p → Step p q → ∀ r ∈ held p q, r.size ≤ max 1 s.size ^ n) ∧
    (s.size ≤ 1 ∨ s.size ^ n < Double.greatest.toReal →
      ∀ p q, Reaches (.start s n) p → Step p q → ∀ r ∈ held p q, r.InRange ∧ r.isFinite = true) := by
  have bounded := PowerState.bounded_start hs n
  have registers : ∀ p q, Reaches (.start s n) p → Step p q → ∀ r ∈ held p q,
      r.Integral ∧ r.size ≤ max 1 s.size ^ n := by
    rintro p q reached ⟨active, passed⟩ r hr
    have kept := (bounded.of_reaches reached).pass active
    rw [passed, Returns.ok_iff] at kept
    obtain ⟨integral, i, hi, bound⟩ := kept.2.2 r hr
    exact ⟨integral, bound.trans (pow_le_max_one_pow s.size_nonneg hi)⟩
  refine ⟨?_, fun p q reached step r hr => (registers p q reached step r hr).2, fun fits p q reached step r hr => ?_⟩
  · obtain ⟨last, reached, done⟩ := bounded.exists_last
    obtain ⟨_, _, i, j, size, _, whole⟩ := bounded.of_reaches reached
    have computed := PowerState.powerFrom_of_reaches reached
    rw [done, powerFrom_zero] at computed
    rw [done, mul_zero, add_zero] at whole
    exact ⟨last, reached, done, (power_eq s n).trans computed, whole ▸ size⟩
  · obtain ⟨integral, bound⟩ := registers p q reached step r hr
    exact integral.inRange (bound.trans_lt (max_one_pow_lt fits))

/-- The fifth power of `-1 + √12`, the radicand of which has a square in it. -/
theorem power_size_surd :
    Integral ⟨[⟨1, 12⟩], .int (-1)⟩ ∧ size ⟨[⟨1, 12⟩], .int (-1)⟩ = 1 + √12 ∧
    Returns (power ⟨[⟨1, 12⟩], .int (-1)⟩ 5) (fun r => r.size ≤ (1 + √12) ^ 5) ∧
    ∀ p q, Reaches (.start ⟨[⟨1, 12⟩], .int (-1)⟩ 5) p → Step p q → ∀ r ∈ held p q,
      r.size ≤ max 1 (1 + √12) ^ 5 ∧ r.InRange := by
  have integral : Integral ⟨[⟨1, 12⟩], .int (-1)⟩ :=
    ⟨⟨-1, rfl⟩, List.forall_mem_singleton.mpr ⟨1, 12, by decide, rfl⟩⟩
  have value : size ⟨[⟨1, 12⟩], .int (-1)⟩ = 1 + √12 := by
    show |((-1 : Int) : ℝ)| + (|((1 : Int) : ℝ)| * √((12 : Int) : ℝ) + 0) = _
    norm_num
  have fits : (1 + √12) ^ 5 < Double.greatest.toReal := by
    have root : √12 ≤ 4 := Real.sqrt_le_iff.mpr (by norm_num)
    calc (1 + √12) ^ 5 ≤ (1 + 4) ^ 5 := by gcongr
      _ < 2 ^ (12 : Int) := by norm_num
      _ < 2 ^ (1023 : Int) := zpow_lt_zpow_right₀ one_lt_two (by decide)
      _ < _ := Double.pow_lt_greatest
  obtain ⟨⟨last, _, _, computed, bound⟩, registers, range⟩ := power_size integral 5
  rw [value] at bound registers range
  refine ⟨integral, value, ⟨_, computed, bound⟩, fun p q reached step r hr => ?_⟩
  exact ⟨registers p q reached step r hr, (range (.inr fits) p q reached step r hr).1⟩

end Surd.RadicalSum
