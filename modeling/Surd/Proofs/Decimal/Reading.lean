import Surd.Proofs.Number.Shown

/-!
# Reading written decimals

A decimal that was written is read back with its value, both from the text without an exponent (`exists_read?_plain`)
and from the text in the layout that is read back without loss (`exists_read?_write`). The decimal that is read can have
another coefficient, since the zeros at the end of a text are read with the other digits.
-/

namespace Surd

variable {cs : List Char} {d d' r : Decimal} {s : Bool} {e : Int}

/-- An exponent is read as it was written. -/
theorem exponentPart?_exponentText (e : Int) : exponentPart? (Decimal.exponentText e) = some e := by
  obtain ⟨tail, negative, cs, d, ds, written, sign, run, value⟩ := Decimal.exponentText_runs e [] (by simp)
  rw [List.append_nil] at written
  rw [written, exponentPart?, if_pos (.inl rfl), sign]
  dsimp only
  rw [run]
  dsimp only
  rw [value]

namespace Decimal

/-- The number with its sign. -/
def value (d : Decimal) : ℚ := (if d.negative then -1 else 1) * (d.coefficient * 10 ^ d.exponent)

/-- The decimal that a text with a sign at most denotes. -/
def read? (cs : List Char) : Option Decimal :=
  let (negative, size) := signRun cs
  ofText? negative size

/-! ## Values -/

theorem cast_value (d : Decimal) : (d.value : ℝ) = (if d.negative then -1 else 1) * d.size := by
  rw [value, size]
  cases d.negative <;> simp

/-- Decimals of the same sign have the same value where they have the same size. -/
theorem value_eq_iff (sign : d.negative = d'.negative) : d.value = d'.value ↔ d.size = d'.size := by
  rw [← Rat.cast_inj (α := ℝ), cast_value, cast_value, sign]
  cases d'.negative <;> simp

@[simp] theorem value_normalize (d : Decimal) : d.normalize.value = d.value :=
  (value_eq_iff (normalize_negative d)).mpr (size_normalize d)

theorem value_mul_pow (s : Bool) (k n : Nat) (e : Int) : value ⟨s, k * 10 ^ n, e⟩ = value ⟨s, k, e + n⟩ := by
  rw [value_eq_iff]
  · exact size_mul_pow s s k n e
  · rfl

/-! ## Reading sizes -/

/-- The sign that was read is kept. -/
theorem negative_of_ofText? (h : ofText? s cs = some r) : r.negative = s := by
  rw [ofText?] at h
  dsimp only at h
  split at h
  all_goals
    split_ifs at h
    obtain ⟨e, _, rfl⟩ := Option.map_eq_some_iff.mp h
    rfl

/-- Zeros at the end of a whole number are read as digits of it. -/
theorem exists_ofText?_positional (s : Bool) (k : Nat) (e : Int) :
    ∃ r, ofText? s (positional k e) = some r ∧ r.value = value ⟨s, k, e⟩ := by
  by_cases he : 0 ≤ e
  · have digit : ∀ c ∈ digits k ++ List.replicate e.toNat '0', isDigit c = true := isDigit_append_zeros
    have read : ofText? s (digits k ++ List.replicate e.toNat '0' ++ []) = _ :=
      ofText?_whole digit (List.append_ne_nil_of_left_ne_nil (digits_ne_nil k) _) (by simp) rfl
    rw [List.append_nil, digitsValue_append_zeros, digitsValue_digits] at read
    refine ⟨_, by rw [positional, if_pos he]; exact read, ?_⟩
    rw [value_mul_pow, zero_add, Int.toNat_of_nonneg he]
  · obtain ⟨whole, fraction, layout, hw, digit, places, same⟩ := Json.exists_split_positional k (not_le.mp he)
    have read : ofText? s (whole ++ '.' :: (fraction ++ [])) = _ :=
      ofText?_point hw.digit digit (.inl hw.ne_nil) (by simp) rfl
    rw [List.append_nil, same, places, zero_sub, neg_neg] at read
    exact ⟨_, by rw [layout]; exact read, rfl⟩

/-- A whole number with a fraction of zero is read with one digit more. -/
theorem exists_ofText?_marked (s : Bool) (k : Nat) (he : 0 ≤ e) :
    ∃ r, ofText? s (positional k e ++ ['.', '0']) = some r ∧ r.value = value ⟨s, k, e⟩ := by
  have digit : ∀ c ∈ digits k ++ List.replicate e.toNat '0', isDigit c = true := isDigit_append_zeros
  have digit' : ∀ c ∈ ['0'], isDigit c = true := List.forall_mem_singleton.mpr rfl
  have read : ofText? s (digits k ++ List.replicate e.toNat '0' ++ '.' :: (['0'] ++ [])) = _ :=
    ofText?_point digit digit' (.inr (List.cons_ne_nil _ _)) (by simp) rfl
  have more : digitsValue (digits k ++ List.replicate e.toNat '0' ++ ['0']) = k * 10 ^ (e.toNat + 1) := by
    rw [List.append_assoc, ← List.replicate_succ', digitsValue_append_zeros, digitsValue_digits]
  rw [more] at read
  refine ⟨_, by rw [positional, if_pos he]; exact read, ?_⟩
  rw [value_mul_pow, List.length_singleton]
  congr 2
  omega

/-- A number with an exponent is read as it was written. -/
theorem ofText?_scientific (s : Bool) (k : Nat) (e : Int) : ofText? s (scientific k e) = some ⟨s, k, e⟩ := by
  obtain ⟨d, more, cons, layout⟩ := exists_scientific k e
  have all : ∀ c ∈ d :: more, isDigit c = true := cons ▸ isDigit_of_mem_digits
  have first : ∀ c ∈ [d], isDigit c = true := List.forall_mem_singleton.mpr (all d List.mem_cons_self)
  have power := exponentPart?_exponentText (more.length + e)
  have mark : ∀ c ∈ (exponentText (more.length + e)).head?, isDigit c = false ∧ c ≠ '.' := by
    rintro _ ⟨⟩
    decide
  rw [layout]
  by_cases none_left : more = []
  · subst none_left
    rw [if_pos rfl, List.nil_append, ofText?_whole first (List.cons_ne_nil _ _) mark power, ← cons, digitsValue_digits,
      List.length_nil, Nat.cast_zero, zero_add]
  · have read := ofText?_point (s := s) first (fun c hc => all c (List.mem_cons_of_mem _ hc))
      (.inl (List.cons_ne_nil _ _)) (fun c hc => (mark c hc).1) power
    rw [if_neg none_left]
    refine read.trans ?_
    rw [List.singleton_append, ← cons, digitsValue_digits, add_sub_cancel_left]

/-! ## Reading numbers -/

/-- A sign in front is read first: what is read without one does not start with a sign. -/
theorem read?_signText (h : ofText? s cs = some r) : read? (signText s ++ cs) = some r := by
  cases s with
  | true => exact h
  | false =>
      have unsigned : signRun cs = (false, cs) := by
        rw [signRun.eq_def]
        split
        · cases h
        · cases h
        · rfl
      show read? cs = some r
      rw [read?, unsigned]
      exact h

theorem exists_read?_plain (d : Decimal) : ∃ r, read? d.plain.toList = some r ∧ r.value = d.value := by
  obtain ⟨r, read, same⟩ := exists_ofText?_positional d.negative d.coefficient d.exponent
  exact ⟨r, by rw [plain, String.toList_ofList]; exact read?_signText read, same⟩

theorem exists_read?_write (d : Decimal) :
    ∃ r, read? (d.write .reading).toList = some r ∧ r.negative = d.negative ∧ r.value = d.value := by
  rw [write, String.toList_ofList, ← value_normalize, ← normalize_negative d]
  split
  · split
    · obtain ⟨r, read, same⟩ := exists_ofText?_marked d.normalize.negative d.normalize.coefficient ‹_›
      exact ⟨r, read?_signText read, negative_of_ofText? read, same⟩
    · obtain ⟨r, read, same⟩ :=
        exists_ofText?_positional d.normalize.negative d.normalize.coefficient d.normalize.exponent
      exact ⟨r, by rw [List.append_nil]; exact read?_signText read, negative_of_ofText? read, same⟩
  · exact ⟨_, read?_signText (ofText?_scientific _ _ _), rfl, rfl⟩

end Decimal

end Surd
