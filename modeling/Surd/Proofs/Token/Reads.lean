import Surd.Proofs.Number.Shown
import Surd.Proofs.Store.Words

/-!
# Reading one token

A numeral or a name is read to its end, a symbol is read by itself. `Reads` gives these rules with the text that
really follows a token. They are those of the scanner (`Reads.read?`, `exists_reads`).

What follows a token matters only in that it does not go on with it (`Reads.before`), and the token in front only where
a minus sign is read (`Reads.congr`).
-/

namespace Surd

open Lexeme (read?)

variable {last last' : Option Lexeme} {cs ds rest rest' num w : List Char} {l : Lexeme} {c : Char}

/-! ## Characters -/

theorem isLetter_iff : isLetter c = true ↔ 65 ≤ c.toNat ∧ c.toNat ≤ 90 ∨ 97 ≤ c.toNat ∧ c.toNat ≤ 122 := by
  simp only [isLetter, Char.isAlpha, Char.isUpper, Char.isLower, Bool.or_eq_true, Bool.and_eq_true,
    decide_eq_true_eq, UInt32.le_iff_toNat_le, ge_iff_le]
  exact Iff.rfl

theorem isDigit_iff : isDigit c = true ↔ 48 ≤ c.toNat ∧ c.toNat ≤ 57 := by
  simp only [isDigit, Bool.and_eq_true, decide_eq_true_eq, Char.le_def, UInt32.le_iff_toNat_le]
  exact Iff.rfl

theorem isNameChar_eq (c : Char) : isNameChar c = (isLetter c || isDigit c || c == '_') := by
  rw [isNameChar, Char.isAlphanum, isDigit_eq]
  rfl

theorem toNat_of_isNameChar (h : isNameChar c = true) : c.toNat < 128 := by
  rw [isNameChar_eq, Bool.or_eq_true, Bool.or_eq_true, isLetter_iff, isDigit_iff, beq_iff_eq] at h
  obtain (h | h) | rfl := h
  · omega
  · omega
  · decide

theorem isNameChar_of_isLetter (h : isLetter c = true) : isNameChar c = true := by simp [isNameChar_eq, h]

theorem isNameChar_of_isDigit (h : isDigit c = true) : isNameChar c = true := by simp [isNameChar_eq, h]

theorem isWordChar_of_isNameChar (h : isNameChar c = true) : isWordChar c = true := by
  rw [isWordChar, if_pos (toNat_of_isNameChar h)]
  exact h

theorem isDigit_of_isLetter (h : isLetter c = true) : isDigit c = false := by
  rw [isLetter_iff] at h
  rw [← Bool.not_eq_true, isDigit_iff]
  omega

theorem blankRanges_apart : ∀ r ∈ blankRanges, ∀ s ∈ wordRanges, r.2 < s.1 ∨ s.2 < r.1 := by decide +kernel

/-- No word character is blank. -/
theorem isBlank_of_isWordChar (h : isWordChar c = true) : isBlank c = false := by
  rw [← Bool.not_eq_true, isBlank, inRanges, List.any_eq_true]
  rintro ⟨r, hr, inside⟩
  rw [Bool.and_eq_true, decide_eq_true_eq, decide_eq_true_eq] at inside
  rw [isWordChar] at h
  split at h
  · rename_i ascii
    have name : isNameChar c = true := h
    rw [isNameChar_eq, Bool.or_eq_true, Bool.or_eq_true, isLetter_iff, isDigit_iff, beq_iff_eq] at name
    have narrow : ∀ r ∈ blankRanges, r.2 < 48 ∨ 127 < r.1 := by decide
    have outer := narrow r hr
    obtain (name | name) | rfl := name
    · omega
    · omega
    · have underscore : '_'.toNat = 95 := rfl
      omega
  · obtain ⟨s, hs, there⟩ := List.any_eq_true.mp h
    rw [Bool.and_eq_true, decide_eq_true_eq, decide_eq_true_eq] at there
    have apart := blankRanges_apart r hr s hs
    omega

theorem isWordChar_of_isBlank (h : isBlank c = true) : isWordChar c = false := by
  by_contra word
  exact Bool.false_ne_true ((isBlank_of_isWordChar (by simpa using word)).symm.trans h)

theorem isBlank_of_isNameChar (h : isNameChar c = true) : isBlank c = false :=
  isBlank_of_isWordChar (isWordChar_of_isNameChar h)

/-! ## Numerals -/

/-- A numeral with what follows it: neither a digit nor, if it has no point, a point. -/
inductive NumeralRun : List Char → List Char → Prop
  | whole {ds rest : List Char} (digit : ∀ c ∈ ds, isDigit c = true) (filled : ds ≠ [])
      (ends : ∀ c ∈ rest.head?, isDigit c = false ∧ c ≠ '.') : NumeralRun ds rest
  | point {ds fraction rest : List Char} (digit : ∀ c ∈ ds, isDigit c = true)
      (digit' : ∀ c ∈ fraction, isDigit c = true) (filled : ds ≠ [] ∨ fraction ≠ [])
      (ends : ∀ c ∈ rest.head?, isDigit c = false) : NumeralRun (ds ++ '.' :: fraction) rest

theorem NumeralRun.congr (h : NumeralRun cs rest) {rest' : List Char} (same : rest'.head? = rest.head?) :
    NumeralRun cs rest' := by
  cases h with
  | whole digit filled ends => exact .whole digit filled (same ▸ ends)
  | point digit digit' filled ends => exact .point digit digit' filled (same ▸ ends)

theorem digitRun_eq_iff {whole tail : List Char} :
    digitRun cs = (whole, tail) ↔ cs.takeWhile isDigit = whole ∧ cs.dropWhile isDigit = tail := by
  rw [digitRun, Prod.mk.injEq]

theorem numeral_of_run (h : NumeralRun cs rest) : numeral (cs ++ rest) = cs := by
  cases h with
  | whole digit _ ends =>
      obtain ⟨taken, dropped⟩ := digitRun_eq_iff.mp (digitRun_append digit fun c hc => (ends c hc).1)
      rw [numeral, dropped, taken]
      split
      · exact absurd rfl (ends _ rfl).2
      · rfl
  | @point ds fraction _ digit digit' _ ends =>
      have front : digitRun (ds ++ '.' :: (fraction ++ rest)) = (ds, '.' :: (fraction ++ rest)) :=
        digitRun_append digit (by simp; decide)
      obtain ⟨taken, dropped⟩ := digitRun_eq_iff.mp front
      obtain ⟨taken', _⟩ := digitRun_eq_iff.mp (digitRun_append digit' ends)
      rw [List.append_assoc, List.cons_append, numeral, dropped, taken]
      simp only [taken']

/-- A numeral that is read denotes a number. -/
theorem NumeralRun.exists_ofText? (run : NumeralRun cs rest) : ∃ x, Double.ofText? cs = some x := by
  have chars : ∀ c ∈ cs, isNumeralChar c = true := by
    have all := isNumeralChar_of_mem_numeral (cs ++ rest)
    rwa [numeral_of_run run] at all
  rw [Double.ofText?_of_numeral chars]
  cases run with
  | whole digit filled =>
      have read : Decimal.ofText? false (cs ++ []) = some _ := Decimal.ofText?_whole digit filled (by simp) rfl
      rw [List.append_nil] at read
      exact ⟨_, by rw [read]; rfl⟩
  | @point ds fraction _ digit digit' filled =>
      have read : Decimal.ofText? false (ds ++ '.' :: (fraction ++ [])) = some _ :=
        Decimal.ofText?_point digit digit' filled (by simp) rfl
      rw [List.append_nil] at read
      exact ⟨_, by rw [read]; rfl⟩

theorem isDigit_head?_dropWhile (cs : List Char) : ∀ c ∈ (cs.dropWhile isDigit).head?, isDigit c = false := by
  intro c hc
  have stop := List.head?_dropWhile_not isDigit cs
  rw [hc] at stop
  exact stop

/-- Where a numeral starts, one is read with what follows it. -/
theorem exists_numeralRun (h : startsNumeral c rest = true) :
    ∃ num rest', c :: rest = num ++ rest' ∧ NumeralRun num rest' := by
  have parts : (c :: rest).takeWhile isDigit ++ (c :: rest).dropWhile isDigit = c :: rest :=
    List.takeWhile_append_dropWhile
  have digit : ∀ d ∈ (c :: rest).takeWhile isDigit, isDigit d = true := fun d hd => List.mem_takeWhile_imp hd
  have stop := isDigit_head?_dropWhile (c :: rest)
  -- Without a digit in front there is a point, and a digit follows it.
  have front : (c :: rest).takeWhile isDigit = [] → c = '.' ∧ rest.takeWhile isDigit ≠ [] := by
    intro none
    have other : isDigit c = false := by
      by_contra digit
      simp [digit] at none
    rw [startsNumeral, other, Bool.false_or, Bool.and_eq_true, beq_iff_eq] at h
    refine ⟨h.1, ?_⟩
    cases rest with
    | nil => cases h.2
    | cons d rest =>
        have digit : isDigit d = true := by simpa using h.2
        simp [digit]
  generalize (c :: rest).takeWhile isDigit = ds at parts digit front
  generalize (c :: rest).dropWhile isDigit = tail at parts stop
  by_cases point : tail.head? = some '.'
  · obtain ⟨tail', rfl⟩ := List.head?_eq_some_iff.mp point
    refine ⟨ds ++ '.' :: tail'.takeWhile isDigit, tail'.dropWhile isDigit, ?_, .point digit ?_ ?_ ?_⟩
    · rw [List.append_assoc, List.cons_append, List.takeWhile_append_dropWhile, parts]
    · exact fun d hd => List.mem_takeWhile_imp hd
    · refine or_iff_not_imp_left.mpr fun none => ?_
      obtain rfl := not_not.mp none
      obtain ⟨_, rfl⟩ := List.cons.inj parts
      exact (front rfl).2
    · exact isDigit_head?_dropWhile tail'
  · refine ⟨ds, tail, parts.symm, .whole digit ?_ fun d hd => ⟨stop d hd, ?_⟩⟩
    · rintro rfl
      obtain rfl : tail = c :: rest := parts
      exact point (congrArg some (front rfl).1)
    · rintro rfl
      exact point hd

theorem NumeralRun.starts (run : NumeralRun cs rest) :
    ∃ c tail, cs = c :: tail ∧ isBlank c = false ∧ startsNumeral c (tail ++ rest) = true := by
  have first : ∀ ds tail, ds ≠ [] → (∀ d ∈ ds, isDigit d = true) →
      ∃ c tail', ds ++ tail = c :: tail' ∧ isBlank c = false ∧ startsNumeral c (tail' ++ rest) = true := by
    intro ds tail filled digit
    obtain ⟨d, ds, rfl⟩ := List.exists_cons_of_ne_nil filled
    have digit := digit d List.mem_cons_self
    exact ⟨d, ds ++ tail, rfl, isBlank_of_isWordChar (isWordChar_of_isNameChar (isNameChar_of_isDigit digit)),
      by simp [startsNumeral, digit]⟩
  cases run with
  | whole digit filled => simpa using first cs [] filled digit
  | @point ds fraction _ digit digit' filled =>
      by_cases none : ds = []
      · subst none
        obtain ⟨d, fraction, rfl⟩ := List.exists_cons_of_ne_nil (filled.resolve_left (not_not.mpr rfl))
        exact ⟨'.', d :: fraction, rfl, by decide, by simp [startsNumeral, digit' d List.mem_cons_self]⟩
      · exact first ds _ none digit

/-! ## Names and symbols -/

theorem startsNumeral_of_isLetter (h : isLetter c = true) (rest : List Char) : startsNumeral c rest = false := by
  have point : c ≠ '.' := by
    rintro rfl
    cases h
  simp [startsNumeral, isDigit_of_isLetter h, point]

@[simp] theorem source_ofName (name : String) : (Lexeme.ofName name).source = name := by
  rw [Lexeme.ofName]
  split <;> rfl

/-- The symbols are neither blank nor parts of words or of numerals, and each is a token by itself. -/
theorem ofSymbol?_spec (h : Lexeme.ofSymbol? last c = some l) :
    isBlank c = false ∧ isWordChar c = false ∧ c ≠ '.' ∧ l.source.toList = [c] := by
  unfold Lexeme.ofSymbol? at h
  split at h
  case h_2 =>
    obtain rfl := Option.some.inj h
    refine ⟨by decide, by decide, by decide, ?_⟩
    split <;> rfl
  case h_9 => cases h
  all_goals
    obtain rfl := Option.some.inj h
    exact ⟨by decide, by decide, by decide, rfl⟩

theorem isNameChar_of_not_isWordChar (h : isWordChar c = false) : isNameChar c = false := by
  by_contra name
  exact Bool.false_ne_true (h.symm.trans (isWordChar_of_isNameChar (by simpa using name)))

/-- What is read depends on the token in front only as far as a minus sign after it is a negation. -/
theorem ofSymbol?_congr (same : Lexeme.beforeNegation last = Lexeme.beforeNegation last') (c : Char) :
    Lexeme.ofSymbol? last c = Lexeme.ofSymbol? last' c := by
  unfold Lexeme.ofSymbol?
  rw [same]

/-! ## Tokens -/

/-- After the token `last`, these characters before this rest are read as one token. -/
inductive Reads (last : Option Lexeme) (rest : List Char) : List Char → Lexeme → Prop
  | numeral {num : List Char} (run : NumeralRun num rest) : Reads last rest num (.number (String.ofList num))
  | name {c : Char} {w : List Char} (letter : isLetter c = true) (hw : ∀ d ∈ w, isNameChar d = true)
      (ends : ∀ d ∈ rest.head?, isNameChar d = false) : Reads last rest (c :: w) (Lexeme.ofName (String.ofList (c :: w)))
  | symbol {c : Char} {l : Lexeme} (read : Lexeme.ofSymbol? last c = some l) : Reads last rest [c] l

/-- No numeral and no name in front of this text goes on with it. -/
def EndsToken (rest : List Char) : Prop := ∀ c ∈ rest.head?, isNameChar c = false ∧ c ≠ '.'

theorem endsToken_nil : EndsToken [] := by simp [EndsToken]

theorem endsToken_cons : EndsToken (c :: rest) ↔ isNameChar c = false ∧ c ≠ '.' := by simp [EndsToken]

theorem endsToken_of_isBlank (h : isBlank c = true) (rest : List Char) : EndsToken (c :: rest) := by
  refine endsToken_cons.mpr ⟨isNameChar_of_not_isWordChar (isWordChar_of_isBlank h), ?_⟩
  rintro rfl
  cases h

namespace Reads

/-- The token is written with the characters that it is read from. -/
theorem source (h : Reads last rest w l) : l.source.toList = w := by
  cases h with
  | numeral => exact String.toList_ofList
  | name => rw [source_ofName, String.toList_ofList]
  | symbol read => exact (ofSymbol?_spec read).2.2.2

theorem length_source (h : Reads last rest w l) : l.source.length = w.length := by
  rw [← h.source, String.length_toList]

theorem filled (h : Reads last rest w l) : w ≠ [] := by
  cases h with
  | numeral run =>
      obtain ⟨c, tail, rfl, _⟩ := run.starts
      exact List.cons_ne_nil c tail
  | name => exact List.cons_ne_nil _ _
  | symbol => exact List.cons_ne_nil _ _

/-- No character of a token is blank. -/
theorem solid (h : Reads last rest w l) : ∀ c ∈ w, isBlank c = false := by
  have digits : ∀ ds : List Char, (∀ c ∈ ds, isDigit c = true) → ∀ c ∈ ds, isBlank c = false := fun _ digit c hc =>
    isBlank_of_isNameChar (isNameChar_of_isDigit (digit c hc))
  cases h with
  | numeral run =>
      cases run with
      | whole digit => exact digits w digit
      | point digit digit' =>
          exact List.forall_mem_append.mpr ⟨digits _ digit, List.forall_mem_cons.mpr ⟨by decide, digits _ digit'⟩⟩
  | name letter hw =>
      refine List.forall_mem_cons.mpr ⟨isBlank_of_isNameChar (isNameChar_of_isLetter letter), ?_⟩
      exact fun c hc => isBlank_of_isNameChar (hw c hc)
  | symbol read => exact List.forall_mem_singleton.mpr (ofSymbol?_spec read).1

/-- A token is read before any text that starts as the one before or ends the token. -/
theorem before (h : Reads last rest w l)
    (next : ∀ c ∈ rest'.head?, c ∈ rest.head? ∨ isNameChar c = false ∧ c ≠ '.') : Reads last rest' w l := by
  have other : ∀ c : Char, isNameChar c = false → isDigit c = false := fun c name => by
    by_contra digit
    exact Bool.false_ne_true (name.symm.trans (isNameChar_of_isDigit (by simpa using digit)))
  cases h with
  | numeral run =>
      refine .numeral ?_
      cases run with
      | whole digit filled ends =>
          exact .whole digit filled fun c hc => (next c hc).elim (ends c) fun h => ⟨other c h.1, h.2⟩
      | point digit digit' filled ends =>
          exact .point digit digit' filled fun c hc => (next c hc).elim (ends c) fun h => other c h.1
  | name letter hw ends => exact .name letter hw fun c hc => (next c hc).elim (ends c) And.left
  | symbol read => exact .symbol read

theorem of_ends (h : Reads last rest w l) (ends : EndsToken rest') : Reads last rest' w l :=
  h.before fun c hc => .inr (ends c hc)

/-- A token is read before a longer text if no token goes on where the text goes on. -/
theorem append {front back : List Char} (h : Reads last front w l) (ends : EndsToken back) :
    Reads last (front ++ back) w l := by
  refine h.before fun c hc => ?_
  cases front with
  | nil => exact .inr (ends c hc)
  | cons => exact .inl hc

/-- A token is the same in a text that is cut off behind it. -/
theorem of_append {front back : List Char} (h : Reads last (front ++ back) w l) : Reads last front w l :=
  h.before fun _ hc => .inl (List.mem_head?_append_of_mem_head? hc)

theorem congr (h : Reads last rest w l) (same : Lexeme.beforeNegation last = Lexeme.beforeNegation last') :
    Reads last' rest w l := by
  cases h with
  | numeral run => exact .numeral run
  | name letter hw ends => exact .name letter hw ends
  | symbol read => exact .symbol (ofSymbol?_congr same _ ▸ read)

/-- What the rules read is what the scanner reads. -/
theorem read? (h : Reads last rest (c :: w) l) : read? last c (w ++ rest) = some l := by
  rw [Lexeme.read?]
  cases h with
  | numeral run =>
      obtain ⟨_, _, parts, _, starts⟩ := run.starts
      obtain ⟨rfl, rfl⟩ := List.cons.inj parts
      rw [if_pos starts, ← List.cons_append, numeral_of_run run]
  | name letter hw ends =>
      have stop : rest.takeWhile isNameChar = [] := by
        cases rest with
        | nil => rfl
        | cons d rest => simp [ends d rfl]
      have munched : (w ++ rest).takeWhile isNameChar = w := by
        rw [List.takeWhile_append_of_pos hw, stop, List.append_nil]
      rw [startsNumeral_of_isLetter letter, if_neg Bool.false_ne_true, if_pos letter, munched]
  | symbol read =>
      obtain ⟨_, word, point, _⟩ := ofSymbol?_spec read
      have other := isNameChar_of_not_isWordChar word
      rw [isNameChar_eq, Bool.or_eq_false_iff, Bool.or_eq_false_iff] at other
      simpa [startsNumeral, other, point] using read

end Reads

/-- The scanner reads by the rules. -/
theorem exists_reads (h : read? last c rest = some l) : ∃ w rest', c :: rest = w ++ rest' ∧ Reads last rest' w l := by
  rw [read?] at h
  split_ifs at h with starts letter
  · obtain rfl := Option.some.inj h
    obtain ⟨num, rest', parts, run⟩ := exists_numeralRun starts
    refine ⟨num, rest', parts, ?_⟩
    rw [parts, numeral_of_run run]
    exact .numeral run
  · obtain rfl := Option.some.inj h
    refine ⟨_, rest.dropWhile isNameChar, ?_, .name letter (fun d hd => List.mem_takeWhile_imp hd) ?_⟩
    · rw [List.cons_append, List.takeWhile_append_dropWhile]
    · intro d hd
      have stop := List.head?_dropWhile_not isNameChar rest
      rw [hd] at stop
      exact stop
  · exact ⟨[c], rest, rfl, .symbol h⟩

end Surd
