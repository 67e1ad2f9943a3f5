import Surd.Radical.Printer
import Surd.Proofs.Number.Shown
import Surd.Proofs.Radical.Unique

/-!
# Reading a written sum

The text of a sum of whole numbers is a row of words between blanks: the constant or the first term, and then for each
later term its sign and the term without it. A reader that splits the text at the blanks and each term at its root gets
the sum back (`ofText?`), so two such sums with the same text are the same.
-/

namespace Surd

variable {x : Char} {c : ℤ} {p : ℕ × ℤ} {ps : List (ℕ × ℤ)} {s t : RadicalSum}

/-! ## Whole numbers -/

theorem not_mem_digits (hx : isDigit x = false) (n : ℕ) : x ∉ digits n := by
  intro mem
  rw [isDigit_of_mem_digits x mem] at hx
  cases hx

theorem toList_writeInt (n : ℤ) : (writeInt n).toList = Decimal.signText (decide (n < 0)) ++ digits n.natAbs := by
  obtain hn | hn := lt_or_ge n 0
  · simp [writeInt_of_neg hn, hn, Decimal.signText]
  · simp [writeInt_of_nonneg hn, hn.not_gt, Decimal.signText]

theorem intOfText?_digits (n : ℕ) : intOfText? (digits n) = some (n : ℤ) := by
  have digit : (digits n).all isDigit = true := List.all_eq_true.mpr isDigit_of_mem_digits
  rw [intOfText?, digit, digitsValue_digits]
  · simp [digits_ne_nil]
  · rintro rest layout
    exact not_mem_digits (x := '-') (by decide) n (layout ▸ List.mem_cons_self)

theorem intOfText?_minus_digits (n : ℕ) : intOfText? ('-' :: digits n) = some (-(n : ℤ)) := by
  have digit : (digits n).all isDigit = true := List.all_eq_true.mpr isDigit_of_mem_digits
  rw [intOfText?, digit, digitsValue_digits]
  simp [digits_ne_nil]

/-- A whole number is read back from what is written of it. -/
theorem intOfText?_writeInt (n : ℤ) : intOfText? (writeInt n).toList = some n := by
  obtain hn | hn := lt_or_ge n 0
  · rw [writeInt_of_neg hn, intOfText?_minus_digits, Int.ofNat_natAbs_of_nonpos hn.le, neg_neg]
  · rw [writeInt_of_nonneg hn, intOfText?_digits, Int.natAbs_of_nonneg hn]

theorem not_mem_writeInt (hx : isDigit x = false) (minus : x ≠ '-') (n : ℤ) : x ∉ (writeInt n).toList := by
  obtain hn | hn := lt_or_ge n 0
  · rw [writeInt_of_neg hn, List.mem_cons, not_or]
    exact ⟨minus, not_mem_digits hx _⟩
  · rw [writeInt_of_nonneg hn]
    exact not_mem_digits hx _

namespace RadicalSum

/-! ## The reader -/

/-- The coefficient in front of a root: none is one, and a sign alone is minus one. -/
def coefficientOfText? : List Char → Option ℤ
  | [] => some 1
  | ['-'] => some (-1)
  | cs => intOfText? cs

/-- The term that a text denotes: a coefficient, the sign of a root and a whole number. -/
def termOfText? (cs : List Char) : Option Term :=
  match cs.splitOn '√' with
  | [front, behind] => do return ⟨.int (← coefficientOfText? front), .int (← intOfText? behind)⟩
  | _ => none

/-- The terms that the words after the first denote, each a sign and a word without one. -/
def laterOfWords? : List (List Char) → Option (List Term)
  | [] => some []
  | ['+'] :: cs :: rest => do return (← termOfText? cs) :: (← laterOfWords? rest)
  | ['-'] :: cs :: rest => do return (← termOfText? ('-' :: cs)) :: (← laterOfWords? rest)
  | _ => none

/-- The sum that words denote: a constant or a first term, and then the later terms. -/
def ofWords? : List (List Char) → Option RadicalSum
  | [] => none
  | first :: rest => do
    let later ← laterOfWords? rest
    match termOfText? first with
    | some t => return ⟨t :: later, 0⟩
    | none => return ⟨later, .int (← intOfText? first)⟩

/-- The sum that a text denotes. -/
def ofText? (cs : List Char) : Option RadicalSum := ofWords? (cs.splitOn ' ')

/-! ## Written terms -/

/-- The coefficient in front of a root without its sign; a size of one is not written. -/
def frontText (c : ℤ) : List Char := if c.natAbs = 1 then [] else digits c.natAbs

/-- A term without its sign. -/
def sizeText (p : ℕ × ℤ) : List Char := frontText p.2 ++ '√' :: digits p.1

/-- A term with its sign if it is negative. -/
def signedText (p : ℕ × ℤ) : List Char := Decimal.signText (decide (p.2 < 0)) ++ sizeText p

theorem not_mem_frontText (hx : isDigit x = false) (c : ℤ) : x ∉ frontText c := by
  unfold frontText
  split
  · exact List.not_mem_nil
  · exact not_mem_digits hx _

theorem coefficientOfText?_front (c : ℤ) :
    coefficientOfText? (Decimal.signText (decide (c < 0)) ++ frontText c) = some c := by
  by_cases unit : c.natAbs = 1
  · obtain rfl | rfl := Int.natAbs_eq_iff.mp unit <;> rfl
  · rw [frontText, if_neg unit, ← toList_writeInt]
    have read := intOfText?_writeInt c
    unfold coefficientOfText?
    split
    · rename_i empty
      rw [empty] at read
      cases read
    · rename_i minus
      rw [minus] at read
      cases read
    · exact read

theorem eq_minus_of_mem_signText (hx : x ∈ Decimal.signText (decide (c < 0))) : x = '-' := by
  unfold Decimal.signText at hx
  split at hx
  · exact List.mem_singleton.mp hx
  · cases hx

/-- A term is read back from its text. -/
theorem termOfText?_signedText (p : ℕ × ℤ) : termOfText? (signedText p) = some (rootTerm p) := by
  have front : '√' ∉ Decimal.signText (decide (p.2 < 0)) ++ frontText p.2 := by
    rw [List.mem_append, not_or]
    exact ⟨fun mem => absurd (eq_minus_of_mem_signText mem) (by decide), not_mem_frontText (by decide) _⟩
  have split : (signedText p).splitOn '√' = [Decimal.signText (decide (p.2 < 0)) ++ frontText p.2, digits p.1] := by
    rw [signedText, sizeText, ← List.append_assoc, List.splitOn_append_cons_self_of_not_mem front,
      List.splitOn_eq_singleton (not_mem_digits (by decide) _)]
  rw [termOfText?, split]
  simp only [coefficientOfText?_front, intOfText?_digits]
  rfl

theorem not_mem_sizeText (hx : isDigit x = false) (root : x ≠ '√') (p : ℕ × ℤ) : x ∉ sizeText p := by
  rw [sizeText, List.mem_append, List.mem_cons, not_or, not_or]
  exact ⟨not_mem_frontText hx _, root, not_mem_digits hx _⟩

theorem toList_termText (large : 2 ≤ p.1) : (termText (rootTerm p)).toList = signedText p := by
  obtain ⟨r, c⟩ := p
  have root : (Number.int r).equal 1 = false := (Number.equal_int r 1).trans (decide_eq_false (by omega))
  have radicand : (writeInt (r : ℤ)).toList = digits r := by rw [writeInt_of_nonneg (by omega), Int.natAbs_natCast]
  have one : (Number.int c).equal 1 = decide (c = 1) := Number.equal_int c 1
  simp only [termText, rootTerm, Radical.text, root, one, Number.equal_int, Number.shown, Number.text, Bool.false_and,
    Bool.false_eq_true, if_false, decide_eq_true_eq, signedText, sizeText]
  split_ifs with one minus
  · simp [one, radicand, frontText, Decimal.signText]
  · simp [minus, radicand, frontText, Decimal.signText]
  · have size : c.natAbs ≠ 1 := by omega
    simp [radicand, toList_writeInt c, frontText, size]

/-! ## Written sums -/

/-- The words of a term after other parts: its sign and the term without it. -/
def laterWords (p : ℕ × ℤ) : List (List Char) := [[if p.2 < 0 then '-' else '+'], sizeText p]

/-- The words of a sum. A constant of zero is written only where nothing else is. -/
def sumWords (k : ℤ) : List (ℕ × ℤ) → List (List Char)
  | [] => [(writeInt k).toList]
  | p :: ps =>
    if k = 0 then signedText p :: ps.flatMap laterWords else (writeInt k).toList :: (p :: ps).flatMap laterWords

theorem toList_laterText (large : 2 ≤ p.1) :
    (laterText (rootTerm p)).toList = ' ' :: (if p.2 < 0 then '-' else '+') :: ' ' :: sizeText p := by
  rw [laterText, toList_termText large, signedText]
  by_cases negative : p.2 < 0
  · simp [negative, Decimal.signText]
  · simp only [negative, decide_false, Decimal.signText, Bool.false_eq_true, if_false, List.nil_append]
    split
    · rename_i rest layout
      exact absurd (layout ▸ List.mem_cons_self) (not_mem_sizeText (x := '-') (by decide) (by decide) p)
    · simp

/-- The later terms follow the words in front of them, each of their words behind a blank. -/
theorem append_join_laterText (large : ∀ p ∈ ps, 2 ≤ p.1) (first : List Char) :
    first ++ (String.join ((ps.map rootTerm).map laterText)).toList =
      [' '].intercalate (first :: ps.flatMap laterWords) := by
  induction ps generalizing first with
  | nil => simp
  | cons p ps ih =>
      obtain ⟨large, rest⟩ := List.forall_mem_cons.mp large
      simp only [List.map_cons, String.toList_join, List.flatMap_cons, toList_laterText large, laterWords,
        List.cons_append, List.nil_append, List.intercalate_cons_cons]
      rw [← ih rest, String.toList_join]
      simp

/-- A sum of whole numbers is written as its words with blanks between them. -/
theorem toList_text (each : ∀ p ∈ ps, 2 ≤ p.1 ∧ p.2 ≠ 0) (k : ℤ) :
    (ofRoots k ps).text.toList = [' '].intercalate (sumWords k ps) := by
  have large : ∀ p ∈ ps, 2 ≤ p.1 := fun p hp => (each p hp).1
  have nonzero : (ps.map rootTerm).filter (fun t => !t.coefficient.isZero) = ps.map rootTerm := by
    rw [List.filter_eq_self]
    intro t ht
    obtain ⟨p, hp, rfl⟩ := List.mem_map.mp ht
    simp [rootTerm, (each p hp).2]
  simp only [text, ofRoots, nonzero, Number.isZero_int, decide_eq_true_eq, Number.shown]
  cases ps with
  | nil =>
      split
      · rename_i zero
        rw [zero, sumWords, List.intercalate_singleton]
        rfl
      · rw [sumWords, List.intercalate_singleton, String.toList_append]
        exact List.append_nil _
  | cons p ps =>
      obtain ⟨first, rest⟩ := List.forall_mem_cons.mp large
      rw [sumWords]
      split
      · rw [List.map_cons, termsText, String.toList_append, toList_termText first, append_join_laterText rest]
      · rw [String.toList_append, append_join_laterText large]

/-! ## Reading the words back -/

theorem laterOfWords?_laterWords (ps : List (ℕ × ℤ)) :
    laterOfWords? (ps.flatMap laterWords) = some (ps.map rootTerm) := by
  induction ps with
  | nil => rfl
  | cons p ps ih =>
      have term := termOfText?_signedText p
      rw [signedText] at term
      rw [List.flatMap_cons, laterWords, List.map_cons]
      by_cases negative : p.2 < 0
      · rw [decide_eq_true negative] at term
        have read : termOfText? ('-' :: sizeText p) = some (rootTerm p) := term
        simp only [if_pos negative, List.cons_append, List.nil_append, laterOfWords?, read, ih]
        rfl
      · rw [decide_eq_false negative] at term
        have read : termOfText? (sizeText p) = some (rootTerm p) := term
        simp only [if_neg negative, List.cons_append, List.nil_append, laterOfWords?, read, ih]
        rfl

/-- A whole number is not read as a term, for it has no root. -/
theorem termOfText?_writeInt (k : ℤ) : termOfText? (writeInt k).toList = none := by
  rw [termOfText?, List.splitOn_eq_singleton (not_mem_writeInt (by decide) (by decide) k)]

theorem ofWords?_constant (k : ℤ) (ps : List (ℕ × ℤ)) :
    ofWords? ((writeInt k).toList :: ps.flatMap laterWords) = some (ofRoots k ps) := by
  simp only [ofWords?, laterOfWords?_laterWords, termOfText?_writeInt, intOfText?_writeInt]
  rfl

/-- A sum of whole numbers is read back from its words. -/
theorem ofWords?_sumWords (k : ℤ) (ps : List (ℕ × ℤ)) : ofWords? (sumWords k ps) = some (ofRoots k ps) := by
  cases ps with
  | nil => exact ofWords?_constant k []
  | cons p ps =>
      rw [sumWords]
      split
      · rename_i zero
        simp only [ofWords?, laterOfWords?_laterWords, termOfText?_signedText, zero]
        rfl
      · exact ofWords?_constant k (p :: ps)

theorem not_mem_sumWords (k : ℤ) (ps : List (ℕ × ℤ)) : ∀ w ∈ sumWords k ps, ' ' ∉ w := by
  have constant : ' ' ∉ (writeInt k).toList := not_mem_writeInt (by decide) (by decide) k
  have size : ∀ p, ' ' ∉ sizeText p := not_mem_sizeText (by decide) (by decide)
  have later : ∀ qs : List (ℕ × ℤ), ∀ w ∈ qs.flatMap laterWords, ' ' ∉ w := by
    intro qs w hw
    obtain ⟨q, _, hw⟩ := List.mem_flatMap.mp hw
    obtain rfl | hw := List.mem_cons.mp hw
    · split <;> decide
    · exact List.mem_singleton.mp hw ▸ size q
  cases ps with
  | nil => exact List.forall_mem_singleton.mpr constant
  | cons p ps =>
      rw [sumWords]
      split
      · refine List.forall_mem_cons.mpr ⟨?_, later ps⟩
        rw [signedText, List.mem_append, not_or]
        exact ⟨fun mem => absurd (eq_minus_of_mem_signText mem) (by decide), size p⟩
      · exact List.forall_mem_cons.mpr ⟨constant, later (p :: ps)⟩

theorem sumWords_ne_nil (k : ℤ) (ps : List (ℕ × ℤ)) : sumWords k ps ≠ [] := by
  cases ps with
  | nil => exact List.cons_ne_nil _ _
  | cons p ps =>
      rw [sumWords]
      split <;> exact List.cons_ne_nil _ _

theorem ofText?_text (each : ∀ p ∈ ps, 2 ≤ p.1 ∧ p.2 ≠ 0) (k : ℤ) :
    ofText? (ofRoots k ps).text.toList = some (ofRoots k ps) := by
  rw [ofText?, toList_text each, List.splitOn_intercalate ' ' (not_mem_sumWords k ps) (sumWords_ne_nil k ps),
    ofWords?_sumWords]

/-- A whole sum is recovered from its text, so whole sums with the same text have the same constant and the same
terms in the same order. -/
theorem text_determines (hs : s.Whole) (ht : t.Whole) :
    ofText? s.text.toList = some s ∧ (s.text = t.text → s.constant = t.constant ∧ s.terms = t.terms) := by
  have read : ∀ {u : RadicalSum}, u.Whole → ofText? u.text.toList = some u := by
    intro u hu
    obtain ⟨k, ps, each, rfl⟩ := hu.exists_roots
    exact ofText?_text each k
  refine ⟨read hs, fun same => ?_⟩
  obtain rfl : s = t := Option.some.inj (by rw [← read hs, same, read ht])
  exact ⟨rfl, rfl⟩

theorem text_determines_two_minus_root_two :
    (ofRoots 2 [(2, -1), (5, 3)]).Whole ∧ (ofRoots 0 [(5, -1)]).Whole ∧
      (ofRoots 2 [(2, -1), (5, 3)]).text = "2 - √2 + 3√5" ∧
      ofText? "2 - √2 + 3√5".toList = some (ofRoots 2 [(2, -1), (5, 3)]) ∧
      (ofRoots 0 [(5, -1)]).text ≠ "2 - √2 + 3√5" := by
  have first : (ofRoots 2 [(2, -1), (5, 3)]).Whole := whole_ofRoots (by decide) 2
  have second : (ofRoots 0 [(5, -1)]).Whole := whole_ofRoots (by decide) 0
  have shown : (ofRoots 2 [(2, -1), (5, 3)]).text = "2 - √2 + 3√5" := by decide +kernel
  obtain ⟨read, determined⟩ := text_determines first second
  rw [shown] at read determined
  refine ⟨first, second, shown, read, fun same => ?_⟩
  exact absurd (determined same.symm).1 (by decide)

end RadicalSum

end Surd
