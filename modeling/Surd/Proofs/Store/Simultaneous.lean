import Surd.Proofs.Store.Expansion
import Mathlib.Data.List.SplitBy

/-!
# Substitution at once

A text falls into longest runs of word characters and of other characters. The names of a store are replaced one after
the other, each time in the whole text, and yet the text comes out as if every run that is a name had been replaced
once and all other runs copied (`Store.substitute_simultaneous`). The numbers that an earlier pass puts in bring no
name into the text, even where one is shown with an exponent and `e` is a name: the letter goes on with the word that
the digits in front of it started.
-/

namespace Surd

/-- The longest runs of word characters and of other characters, in order. -/
def wordRuns (cs : List Char) : List (List Char) := cs.splitBy fun c d => isWordChar c == isWordChar d

/-- Identifiers as names, each bound once, and no infinity or "not a number" among the values. The names of functions
can be among the names. -/
structure Store.Identified (s : Store) : Prop where
  distinct : s.names.Nodup
  named : ∀ n ∈ s.names, IsIdentifier n.toList
  bounded : ∀ b ∈ s.bindings, b.2.Bounded

variable {f : List Char → List Char} {cs r : List Char} {rs : List (List Char)} {s : Store}

/-! ## Runs -/

@[simp] theorem flatten_wordRuns (cs : List Char) : (wordRuns cs).flatten = cs := List.flatten_splitBy _ cs

/-- A text that is not empty and has characters of one kind only, in a word or outside of words. -/
structure IsRun (r : List Char) : Prop where
  filled : r ≠ []
  uniform : ∀ c ∈ r, ∀ d ∈ r, isWordChar c = isWordChar d

/-- The runs of words and of other characters take turns. -/
def TakeTurns (rs : List (List Char)) : Prop :=
  rs.IsChain fun r r' => ∀ c ∈ r.getLast?, ∀ d ∈ r'.head?, isWordChar c ≠ isWordChar d

theorem isRun_of_mem_wordRuns (h : r ∈ wordRuns cs) : IsRun r := by
  refine ⟨List.ne_nil_of_mem_splitBy h, ?_⟩
  have chain : r.IsChain fun c d => isWordChar c = isWordChar d :=
    (List.isChain_of_mem_splitBy h).imp fun _ _ same => by simpa using same
  clear h
  induction r with
  | nil => simp
  | cons c r ih =>
      have first : ∀ d ∈ c :: r, isWordChar c = isWordChar d := by
        cases r with
        | nil => simp
        | cons d r =>
            obtain ⟨same, chain⟩ := List.isChain_cons_cons.mp chain
            exact List.forall_mem_cons.mpr ⟨rfl, fun d' hd' => same.trans (ih chain d List.mem_cons_self d' hd')⟩
      exact fun d hd d' hd' => (first d hd).symm.trans (first d' hd')

theorem takeTurns_wordRuns (cs : List Char) : TakeTurns (wordRuns cs) := by
  refine (List.isChain_getLast_head_splitBy _ cs).imp ?_
  rintro r r' ⟨filled, filled', other⟩ c hc d hd
  rw [List.getLast?_eq_some_getLast filled] at hc
  rw [List.head?_eq_some_head filled'] at hd
  obtain rfl := Option.some.inj hc
  obtain rfl := Option.some.inj hd
  simpa using other

/-- A run of word characters is a word where the next run starts. -/
theorem TakeTurns.endsWord (turns : TakeTurns (r :: rs)) (runs : ∀ r' ∈ r :: rs, IsRun r')
    (word : ∀ c ∈ r, isWordChar c = true) : EndsWord rs.flatten := by
  cases rs with
  | nil => exact endsWord_nil
  | cons r' rs =>
      obtain ⟨run, run', _⟩ := (List.forall_mem_cons.mp runs).imp_right List.forall_mem_cons.mp
      obtain ⟨d, w, rfl⟩ := List.exists_cons_of_ne_nil run'.filled
      have turn := (List.isChain_cons_cons.mp turns).1 _ (List.getLast?_eq_some_getLast run.filled) d rfl
      rw [word _ (List.getLast_mem _)] at turn
      exact endsWord_cons.mpr (by simpa using turn.symm)

/-- Where runs take turns, the words of the whole text are replaced by replacing the runs. -/
theorem replaceWords_flatten (kept : ∀ w, (∀ d ∈ w, isWordChar d = false) → f w = w) (runs : ∀ r ∈ rs, IsRun r)
    (turns : TakeTurns rs) : replaceWords f false rs.flatten = rs.flatMap f := by
  induction rs with
  | nil => simp
  | cons r rs ih =>
      obtain ⟨run, runs'⟩ := List.forall_mem_cons.mp runs
      have rest := ih runs' turns.tail
      rw [List.flatten_cons, List.flatMap_cons]
      cases kind : isWordChar (r.head run.filled) with
      | false =>
          have gap : ∀ d ∈ r, isWordChar d = false := fun d hd => (run.uniform d hd _ (List.head_mem _)).trans kind
          rw [replaceWords_gaps gap, kept r gap, rest]
      | true =>
          have word : ∀ d ∈ r, isWordChar d = true := fun d hd => (run.uniform d hd _ (List.head_mem _)).trans kind
          rw [replaceWords_word word run.filled (turns.endsWord runs word), rest]

theorem replaceWords_eq_flatMap (kept : ∀ w, (∀ d ∈ w, isWordChar d = false) → f w = w) (cs : List Char) :
    replaceWords f false cs = (wordRuns cs).flatMap f := by
  rw [← replaceWords_flatten kept (fun r hr => isRun_of_mem_wordRuns hr) (takeTurns_wordRuns cs), flatten_wordRuns]

/-! ## Names -/

namespace Store.Identified

theorem nameWord (h : s.Identified) : ∀ n ∈ s.names, NameWord n.toList := fun n hn => (h.named n hn).nameWord

theorem numeralWords (h : s.Identified) : ∀ b ∈ s.bindings, NumeralWords (shownInText b.2).toList :=
  fun b hb => numeralWords_shownInText (h.bounded b hb)

/-- What is no word is no name. -/
theorem shownWord_gap (h : s.Identified) (gap : ∀ d ∈ cs, isWordChar d = false) :
    shownWord s.bindings cs = cs := by
  refine shownWord_of_not_mem fun there => ?_
  have name := h.nameWord _ there
  rw [String.toList_ofList] at name
  obtain ⟨c, w, rfl⟩ := List.exists_cons_of_ne_nil name.filled
  exact Bool.false_ne_true ((gap c List.mem_cons_self).symm.trans (name.word c List.mem_cons_self))

end Store.Identified

namespace Store

/-- What is known of plain stores is more: they do not bind the names of functions. -/
theorem Plain.identified (h : s.Plain) : s.Identified where
  distinct := h.distinct
  named := h.identifier
  bounded := h.bounded

/-- **Substitution at once.** With identifiers as names and numbers as values, substituting the names of a store in a
text replaces every longest run of word characters that is a name by its number, and it copies all other runs. It does
not matter in which order the names are replaced, and no number that is put into a text is changed by the names. -/
theorem substitute_simultaneous (h : s.Identified) (text : String) :
    (s.substitute text).toList = (wordRuns text.toList).flatMap (shownWord s.bindings) ∧
    (∀ es : Entries String Number, es.Perm s.bindings →
      es.foldl (fun cs b => replaceName b.1.toList (shownInText b.2).toList none cs) text.toList =
        (s.substitute text).toList) ∧
    ∀ b ∈ s.bindings, s.substitute (shownInText b.2) = shownInText b.2 := by
  have once (text : String) : (s.substitute text).toList = replaceWords (shownWord s.bindings) false text.toList :=
    toList_substitute h.distinct h.nameWord h.numeralWords text
  refine ⟨?_, fun es order => ?_, fun b hb => ?_⟩
  · rw [once, replaceWords_eq_flatMap fun w gap => h.shownWord_gap gap]
  · have names := order.map Prod.fst
    have distinct : es.names.Nodup := names.nodup_iff.mpr h.distinct
    rw [once, foldl_replaceName distinct (fun n hn => h.nameWord n (names.subset hn))
      (fun b hb => h.numeralWords b (order.subset hb)), shownWord_of_perm order distinct]
  · rw [← String.toList_inj, once, h.numeralWords b hb _ (keepsNumerals_shownWord h.nameWord)]

/-- The constants, `x` under minus three and `ex` under a number that is shown as `1e-05`. -/
def signedAndSmall : Store :=
  ⟨constants ++ [("x", .int (-3)), ("ex", .real (Decimal.toDouble ⟨false, 1, -5⟩))]⟩

/-- The `e` of the number shown for `ex`, put in first, is none of the text's own. -/
theorem substitute_simultaneous_exponent :
    signedAndSmall.Identified ∧
    (signedAndSmall.substitute "x*ex+exp-e").toList = "(-3)*1e-05+exp-2.718281828".toList ∧
    signedAndSmall.substitute "1e-05" = "1e-05" := by
  have identified : signedAndSmall.Identified := {
    distinct := by decide
    named := by decide
    bounded := by decide +kernel }
  obtain ⟨once, _, inserted⟩ := substitute_simultaneous identified "x*ex+exp-e"
  refine ⟨identified, once.trans (by decide +kernel), ?_⟩
  have shown : shownInText (.real (Decimal.toDouble ⟨false, 1, -5⟩)) = "1e-05" := by decide +kernel
  have fixed := inserted ("ex", .real (Decimal.toDouble ⟨false, 1, -5⟩)) (by simp [signedAndSmall])
  rwa [shown] at fixed

end Store

end Surd
