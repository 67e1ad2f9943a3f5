import Surd.Json.Reader
import Surd.Json.Writer
import Surd.Proofs.Decimal.Digits
import Surd.Proofs.Decimal.Shortest

/-!
# Numbers in JSON

Every number is read back from what is written for it. The main statement, `scalar?_writeNumber`, is about a number in
front of a text that does not go on with it.
-/

namespace Surd.Json

variable {whole fraction tail tail' rest : List Char} {exponent : Option Int} {s : Bool} {c : Char}

/-- The text does not go on with a number in front of it. -/
def EndsNumber (rest : List Char) : Prop := ∀ c ∈ rest.head?, isDigit c = false ∧ c ∉ ['.', 'e', 'E']

theorem EndsNumber.isDigit (h : EndsNumber rest) : ∀ c ∈ rest.head?, isDigit c = false := fun c hc => (h c hc).1

/-- Digits that are read to their end as the whole part of a number. -/
structure WholePart (ds : List Char) : Prop where
  digit : ∀ c ∈ ds, isDigit c = true
  ne_nil : ds ≠ []
  front : ds = ['0'] ∨ ds.head? ≠ some '0'

theorem WholePart.zero : WholePart ['0'] where
  digit := List.forall_mem_singleton.mpr rfl
  ne_nil := List.cons_ne_nil _ _
  front := .inl rfl

theorem wholePart_digits (n : Nat) : WholePart (digits n) where
  digit := isDigit_of_mem_digits
  ne_nil := digits_ne_nil n
  front := by
    obtain rfl | h := eq_or_ne n 0
    · exact .inl rfl
    · exact .inr (head?_digits h)

/-! ## The parts of a number -/

theorem WholePart.wholePart (h : WholePart whole) (tail : List Char) : Json.wholePart whole tail = (whole, tail) := by
  unfold Json.wholePart
  split
  · rename_i more
    obtain zero | front := h.front
    · obtain ⟨_, rfl⟩ := List.cons.inj zero
      rfl
    · exact absurd rfl front
  · rfl

theorem fractionPart_point (hf : ∀ c ∈ fraction, isDigit c = true) (some_digit : fraction ≠ [])
    (ends : ∀ c ∈ rest.head?, isDigit c = false) : fractionPart ('.' :: (fraction ++ rest)) = (fraction, rest) := by
  rw [fractionPart, digitRun_append hf ends]
  cases fraction with
  | nil => exact absurd rfl some_digit
  | cons => rfl

theorem fractionPart_of_ne (h : ∀ c ∈ rest.head?, c ≠ '.') : fractionPart rest = ([], rest) := by
  cases rest with
  | nil => rfl
  | cons c cs =>
      rw [fractionPart]
      rintro _ ⟨⟩
      exact h _ rfl rfl

theorem EndsNumber.fractionPart (h : EndsNumber rest) : Json.fractionPart rest = ([], rest) := by
  apply fractionPart_of_ne
  rintro _ hc rfl
  exact (h _ hc).2 (by decide)

theorem EndsNumber.exponentPart (h : EndsNumber rest) : Json.exponentPart rest = (none, rest) := by
  cases rest with
  | nil => rfl
  | cons c cs =>
      have other := (h c rfl).2
      rw [Json.exponentPart, if_neg]
      rintro (rfl | rfl) <;> exact other (by decide)

theorem exponentPart_exponentText (e : Int) (ends : ∀ c ∈ rest.head?, isDigit c = false) :
    exponentPart (Decimal.exponentText e ++ rest) = (some e, rest) := by
  obtain ⟨tail, negative, cs, d, ds, written, sign, run, value⟩ := Decimal.exponentText_runs e rest ends
  rw [written, exponentPart, if_pos (.inl rfl), sign]
  dsimp only
  rw [run]
  dsimp only
  rw [value]

/-! ## Numbers without a sign -/

/-- A number without a sign, part by part. -/
theorem unsigned?_append (h : WholePart whole) (starts : ∀ c ∈ tail.head?, isDigit c = false)
    (hf : fractionPart tail = (fraction, tail')) (he : exponentPart tail' = (exponent, rest)) :
    unsigned? s (whole ++ tail) = some
      (if fraction.isEmpty && exponent.isNone then .int (if s then -digitsValue whole else digitsValue whole)
        else .real (Decimal.toDouble ⟨s, digitsValue (whole ++ fraction), exponent.getD 0 - fraction.length⟩),
        rest) := by
  rw [unsigned?, digitRun_append h.digit starts]
  dsimp only
  rw [h.wholePart, hf]
  dsimp only
  rw [he, if_neg (by simpa using h.ne_nil)]
  dsimp only
  split <;> rfl

theorem unsigned?_int (h : WholePart whole) (ends : EndsNumber rest) :
    unsigned? s (whole ++ rest) = some (.int (if s then -digitsValue whole else digitsValue whole), rest) :=
  unsigned?_append h ends.isDigit ends.fractionPart ends.exponentPart

theorem isDigit_head_cons {cs : List Char} (h : isDigit c = false) : ∀ d ∈ (c :: cs).head?, isDigit d = false := by
  rintro _ ⟨⟩
  exact h

/-- A number with a point. -/
theorem unsigned?_point (h : WholePart whole) (hf : ∀ c ∈ fraction, isDigit c = true) (some_digit : fraction ≠ [])
    (ends : EndsNumber rest) :
    unsigned? s (whole ++ '.' :: (fraction ++ rest)) = some
      (.real (Decimal.toDouble ⟨s, digitsValue (whole ++ fraction), -fraction.length⟩), rest) := by
  rw [unsigned?_append h (isDigit_head_cons rfl) (fractionPart_point hf some_digit ends.isDigit) ends.exponentPart,
    if_neg (by simp [some_digit])]
  simp only [Option.getD_none, zero_sub]

/-- A number with an exponent, and with a point if digits follow it. -/
theorem unsigned?_exponent (h : WholePart whole) (hf : ∀ c ∈ fraction, isDigit c = true) (e : Int)
    (ends : EndsNumber rest) :
    unsigned? s (whole ++ ((if fraction = [] then [] else '.' :: fraction) ++ (Decimal.exponentText e ++ rest))) = some
      (.real (Decimal.toDouble ⟨s, digitsValue (whole ++ fraction), e - fraction.length⟩), rest) := by
  have power := exponentPart_exponentText e ends.isDigit
  have mark : ∀ c ∈ (Decimal.exponentText e ++ rest).head?, c = 'e' := by
    rintro _ ⟨⟩
    rfl
  have no_digit : ∀ c ∈ (Decimal.exponentText e ++ rest).head?, isDigit c = false := by
    intro c hc
    rw [mark c hc]
    rfl
  by_cases none_left : fraction = []
  · subst none_left
    have point := fractionPart_of_ne fun c hc => (mark c hc).trans_ne (by decide)
    rw [if_pos rfl, List.nil_append, unsigned?_append h no_digit point power, if_neg (by simp)]
    rfl
  · have point := fractionPart_point hf none_left no_digit
    rw [if_neg none_left, List.cons_append, unsigned?_append h (isDigit_head_cons rfl) point power, if_neg (by simp)]
    rfl

/-! ## Doubles -/

theorem unsigned?_scientific (k : Nat) (e : Int) (ends : EndsNumber rest) :
    unsigned? s (Decimal.scientific k e ++ rest) = some (.real (Decimal.toDouble ⟨s, k, e⟩), rest) := by
  obtain ⟨d, more, cons, layout⟩ := Decimal.exists_scientific k e
  have all : ∀ c ∈ d :: more, isDigit c = true := cons ▸ isDigit_of_mem_digits
  have first : WholePart [d] := by
    refine ⟨fun c hc => all c ?_, List.cons_ne_nil _ _, ?_⟩
    · rw [List.mem_singleton.mp hc]
      exact List.mem_cons_self
    · by_cases zero : d = '0'
      · exact .inl (zero ▸ rfl)
      · exact .inr fun front => zero (Option.some.inj front)
  have parts := unsigned?_exponent (s := s) first (fun c hc => all c (List.mem_cons_of_mem _ hc)) (more.length + e) ends
  rw [layout, List.append_assoc, List.append_assoc, parts, List.singleton_append, ← cons, digitsValue_digits,
    add_sub_cancel_left]

/-- The whole part and the fraction of a number that is written with a point. -/
theorem exists_split_positional (k : Nat) {e : Int} (he : e < 0) :
    ∃ whole fraction, Decimal.positional k e = whole ++ '.' :: fraction ∧ WholePart whole ∧
      (∀ c ∈ fraction, isDigit c = true) ∧ (fraction.length : Int) = -e ∧ digitsValue (whole ++ fraction) = k := by
  obtain ⟨places, hp⟩ := Int.exists_eq_neg_ofNat he.le
  have hpos : 0 < places := by omega
  have back : (-e).toNat = places := by omega
  generalize padded : List.replicate (places + 1 - (digits k).length) '0' ++ digits k = ds
  have all : ∀ c ∈ ds, isDigit c = true := padded ▸ isDigit_zeros_append isDigit_of_mem_digits
  have room : places + 1 ≤ ds.length := by
    rw [← padded, List.length_append, List.length_replicate]
    omega
  have value : digitsValue ds = k := by rw [← padded, digitsValue_zeros_append, digitsValue_digits]
  refine ⟨ds.take (ds.length - places), ds.drop (ds.length - places), ?_, ⟨?_, ?_, ?_⟩, ?_, ?_, ?_⟩
  · rw [Decimal.positional]
    dsimp only
    rw [if_neg (not_le.mpr he), back, padded]
  · exact fun c hc => all c (List.mem_of_mem_take hc)
  · rw [Ne, List.take_eq_nil_iff, not_or]
    exact ⟨by omega, List.ne_nil_of_length_pos (by omega)⟩
  · obtain short | long := Nat.lt_or_ge places (digits k).length
    · have unpadded : ds = digits k := by
        rw [← padded, Nat.sub_eq_zero_of_le short]
        rfl
      have nonzero : k ≠ 0 := by
        rintro rfl
        rw [length_digits_of_lt (by decide)] at short
        omega
      rw [List.head?_take, if_neg (by omega), unpadded]
      exact .inr (head?_digits nonzero)
    · obtain ⟨zeros, hz⟩ : ∃ zeros, places + 1 - (digits k).length = zeros + 1 := ⟨places - (digits k).length, by omega⟩
      have one : ds.length - places = 1 := by
        rw [← padded, List.length_append, List.length_replicate]
        omega
      rw [one, ← padded, hz]
      exact .inl rfl
  · exact fun c hc => all c (List.mem_of_mem_drop hc)
  · rw [List.length_drop]
    omega
  · rw [List.take_append_drop, value]

theorem unsigned?_positional (k : Nat) (e : Int) (zero : k = 0 → e = 0) (ends : EndsNumber rest) :
    unsigned? s (Decimal.positional k e ++ (if 0 ≤ e then ['.', '0'] else []) ++ rest) =
      some (.real (Decimal.toDouble ⟨s, k, e⟩), rest) := by
  by_cases he : 0 ≤ e
  · have whole : WholePart (digits k ++ List.replicate e.toNat '0') := by
      refine ⟨isDigit_append_zeros, List.append_ne_nil_of_left_ne_nil (digits_ne_nil k) _, ?_⟩
      obtain rfl | hk := eq_or_ne k 0
      · rw [zero rfl]
        exact .inl rfl
      · rw [List.head?_append_of_ne_nil _ (digits_ne_nil k)]
        exact .inr (head?_digits hk)
    rw [Decimal.positional]
    dsimp only
    rw [if_pos he, if_pos he, List.append_assoc _ ['.', '0']]
    have digit : ∀ c ∈ ['0'], isDigit c = true := List.forall_mem_singleton.mpr rfl
    have parts := unsigned?_point (s := s) whole digit (by decide) ends
    refine parts.trans ?_
    have exponent : -((['0'].length : Nat) : Int) + (e.toNat + 1 : Nat) = e := by
      rw [List.length_singleton]
      omega
    rw [List.append_assoc, ← List.replicate_succ', digitsValue_append_zeros, digitsValue_digits,
      Decimal.toDouble_mul_pow, exponent]
  · obtain ⟨whole, fraction, layout, hw, hf, places, value⟩ := exists_split_positional k (not_le.mp he)
    have some_digit : fraction ≠ [] := by
      rintro rfl
      exact he (by simpa using places.ge)
    rw [layout, if_neg he, List.append_nil, List.append_assoc, List.cons_append,
      unsigned?_point hw hf some_digit ends, value, places, neg_neg]

/-! ## Numbers with a sign -/

theorem exists_digit_of_unsigned? {cs : List Char} {r : Number × List Char} (h : unsigned? s cs = some r) :
    ∃ c tail, cs = c :: tail ∧ isDigit c = true := by
  cases cs with
  | nil => cases h
  | cons c tail =>
      refine ⟨c, tail, rfl, ?_⟩
      by_contra other
      have run : digitRun (c :: tail) = ([], c :: tail) := by
        rw [digitRun, List.takeWhile_cons_of_neg other, List.dropWhile_cons_of_neg other]
      rw [unsigned?, run] at h
      cases h

theorem scalar?_signed {cs : List Char} {n : Number} (h : unsigned? s cs = some (n, rest)) :
    scalar? (Decimal.signText s ++ cs) = some (number n, rest) := by
  obtain ⟨c, tail, rfl, digit⟩ := exists_digit_of_unsigned? h
  have other : ∀ d more, isDigit d = false → c :: tail ≠ d :: more := by
    rintro d more no_digit ⟨⟩
    exact Bool.false_ne_true (no_digit.symm.trans digit)
  cases s with
  | true =>
      show scalar? ('-' :: c :: tail) = _
      rw [scalar?, h]
      · rfl
      · exact fun more => other 'I' more rfl
  | false =>
      show scalar? (c :: tail) = _
      rw [scalar?, h]
      · rfl
      all_goals exact fun more => other _ _ rfl

/-- What is written for a decimal is read as its double. -/
theorem scalar?_write (d : Decimal) (ends : EndsNumber rest) :
    scalar? ((d.write .reading).toList ++ rest) = some (number (.real d.toDouble), rest) := by
  rw [Decimal.write, String.toList_ofList, List.append_assoc, ← Decimal.toDouble_normalize]
  apply scalar?_signed
  split
  · exact unsigned?_positional _ _ Decimal.exponent_normalize_eq_zero ends
  · exact unsigned?_scientific _ _ ends

theorem scalar?_writeInt (n : Int) (ends : EndsNumber rest) :
    scalar? ((writeInt n).toList ++ rest) = some (number (.int n), rest) := by
  rw [writeInt]
  split
  · rename_i negative
    have read := unsigned?_int (s := true) (wholePart_digits n.natAbs) ends
    rw [if_pos rfl, digitsValue_digits, Int.ofNat_natAbs_of_nonpos negative.le, neg_neg] at read
    rw [String.toList_ofList]
    exact scalar?_signed read
  · rename_i nonneg
    have read := unsigned?_int (s := false) (wholePart_digits n.natAbs) ends
    rw [if_neg Bool.false_ne_true, digitsValue_digits, Int.natAbs_of_nonneg (not_lt.mp nonneg)] at read
    rw [String.toList_ofList]
    exact scalar?_signed read

/-- A number in front of a text that does not go on with it is read back. -/
theorem scalar?_writeNumber (n : Number) (ends : EndsNumber rest) :
    scalar? (writeNumber n ++ rest) = some (number n, rest) := by
  match n with
  | .int n => exact scalar?_writeInt n ends
  | .real .nan => rfl
  | .real (.infinite true) => rfl
  | .real (.infinite false) => rfl
  | .real (.finite s m e fits) =>
      have read := scalar?_write (Decimal.shortest (.finite s m e fits)) ends
      rwa [Decimal.toDouble_shortest rfl] at read

end Surd.Json
