import Surd.Store.Substitution
import Surd.Proofs.Entries
import Mathlib.Data.List.TakeWhile

/-!
# Replacing words

A word is a longest run of word characters. Replacing a name between word boundaries replaces the words that are this
name (`replaceName_eq`). The numbers that a store puts in the place of its names have no words but those that start
with a digit, so the names are as good as replaced all at once, although they are replaced one after the other
(`Store.toList_substitute`).
-/

namespace Surd

/-- The text with every word replaced. A text that starts inside of a word keeps what is left of it. -/
def replaceWords (f : List Char → List Char) (inside : Bool) : List Char → List Char
  | [] => []
  | c :: rest =>
    if isWordChar c then
      if inside then c :: replaceWords f true rest
      else f (c :: rest.takeWhile isWordChar) ++ replaceWords f false (rest.dropWhile isWordChar)
    else c :: replaceWords f false rest
termination_by cs => cs.length
decreasing_by
  · simp
  · have shorter := (List.dropWhile_suffix isWordChar (l := rest)).length_le
    simp only [List.length_cons]
    omega
  · simp

variable {f g : List Char → List Char} {name shown cs rest w : List Char} {before : Option Char} {c : Char}
  {inside : Bool}

/-! ## Words -/

/-- A word in front of this text ends: no word character follows. -/
def EndsWord (rest : List Char) : Prop := ∀ c ∈ rest.head?, isWordChar c = false

theorem endsWord_nil : EndsWord [] := by simp [EndsWord]

theorem endsWord_cons : EndsWord (c :: rest) ↔ isWordChar c = false := by simp [EndsWord]

theorem endsWord_append (h : EndsWord cs) (h' : EndsWord rest) : EndsWord (cs ++ rest) := by
  cases cs with
  | nil => exact h'
  | cons => exact h

/-- A text that starts with a word character is a word and what follows it. -/
theorem exists_word (h : isWordChar c = true) (rest : List Char) :
    ∃ w rest', c :: rest = (c :: w) ++ rest' ∧ (∀ d ∈ c :: w, isWordChar d = true) ∧ EndsWord rest' ∧
      w = rest.takeWhile isWordChar ∧ rest' = rest.dropWhile isWordChar := by
  refine ⟨_, _, ?_, ?_, ?_, rfl, rfl⟩
  · rw [List.cons_append, List.takeWhile_append_dropWhile]
  · exact List.forall_mem_cons.mpr ⟨h, fun d hd => List.mem_takeWhile_imp hd⟩
  · intro d hd
    have stop := List.head?_dropWhile_not isWordChar rest
    rw [hd] at stop
    exact stop

/-! ## Replacing them -/

@[simp] theorem replaceWords_nil : replaceWords f inside [] = [] := by
  rw [replaceWords]

theorem replaceWords_gap (h : isWordChar c = false) :
    replaceWords f inside (c :: rest) = c :: replaceWords f false rest := by
  simp [replaceWords, h]

theorem replaceWords_inside (h : isWordChar c = true) :
    replaceWords f true (c :: rest) = c :: replaceWords f true rest := by
  simp [replaceWords, h]

theorem replaceWords_gaps (hw : ∀ d ∈ w, isWordChar d = false) :
    replaceWords f false (w ++ rest) = w ++ replaceWords f false rest := by
  induction w with
  | nil => rfl
  | cons d w ih =>
      obtain ⟨first, more⟩ := List.forall_mem_cons.mp hw
      rw [List.cons_append, replaceWords_gap first, ih more, List.cons_append]

theorem replaceWords_of_endsWord (h : EndsWord cs) : replaceWords f inside cs = replaceWords f false cs := by
  cases cs with
  | nil => simp
  | cons c rest => rw [replaceWords_gap (h c rfl), replaceWords_gap (h c rfl)]

theorem head?_replaceWords_of_endsWord (h : EndsWord cs) : (replaceWords f inside cs).head? = cs.head? := by
  cases cs with
  | nil => simp
  | cons c rest => rw [replaceWords_gap (h c rfl), List.head?_cons, List.head?_cons]

theorem endsWord_replaceWords (h : EndsWord cs) : EndsWord (replaceWords f inside cs) := by
  rwa [EndsWord, head?_replaceWords_of_endsWord h]

theorem replaceWords_word (hw : ∀ d ∈ w, isWordChar d = true) (filled : w ≠ []) (ends : EndsWord rest) :
    replaceWords f false (w ++ rest) = f w ++ replaceWords f false rest := by
  obtain ⟨c, w, rfl⟩ := List.exists_cons_of_ne_nil filled
  obtain ⟨first, more⟩ := List.forall_mem_cons.mp hw
  have stop : rest.takeWhile isWordChar = [] ∧ rest.dropWhile isWordChar = rest := by
    cases rest with
    | nil => exact ⟨rfl, rfl⟩
    | cons d rest => simp [ends d rfl]
  rw [List.cons_append, replaceWords, if_pos first, if_neg Bool.false_ne_true, List.takeWhile_append_of_pos more,
    List.dropWhile_append_of_pos more, stop.1, stop.2, List.append_nil]

theorem replaceWords_append (ends : EndsWord rest) :
    replaceWords f inside (cs ++ rest) = replaceWords f inside cs ++ replaceWords f false rest := by
  fun_induction replaceWords f inside cs with
  | case1 => exact replaceWords_of_endsWord ends
  | case2 c cs word ih => rw [List.cons_append, replaceWords_inside word, ih, List.cons_append]
  | case3 inside c cs word outside ih =>
      obtain rfl : inside = false := by simpa using outside
      obtain ⟨w, cs', parts, hw, ends', rfl, rfl⟩ := exists_word word cs
      rw [parts, List.append_assoc, replaceWords_word hw (List.cons_ne_nil _ _) (endsWord_append ends' ends), ih,
        List.append_assoc]
  | case4 inside c cs gap ih =>
      rw [List.cons_append, replaceWords_gap (by simpa using gap), ih, List.cons_append]

/-- A replacement in a text whose words were replaced before meets the words of what was put there. -/
theorem replaceWords_replaceWords :
    replaceWords g inside (replaceWords f inside cs) =
      replaceWords (fun w => replaceWords g false (f w)) inside cs := by
  fun_induction replaceWords f inside cs with
  | case1 => simp
  | case2 c cs word ih => rw [replaceWords_inside word, ih, replaceWords_inside word]
  | case3 inside c cs word outside ih =>
      obtain rfl : inside = false := by simpa using outside
      obtain ⟨w, cs', parts, hw, ends, rfl, rfl⟩ := exists_word word cs
      rw [replaceWords_append (endsWord_replaceWords ends), ih, parts,
        replaceWords_word hw (List.cons_ne_nil _ _) ends]
  | case4 inside c cs gap ih =>
      have gap : isWordChar c = false := by simpa using gap
      rw [replaceWords_gap gap, ih, replaceWords_gap gap]

theorem replaceWords_congr (h : ∀ w, w ≠ [] → (∀ d ∈ w, isWordChar d = true) → f w = g w) :
    replaceWords f inside cs = replaceWords g inside cs := by
  fun_induction replaceWords f inside cs with
  | case1 => simp
  | case2 c cs word ih => rw [ih, replaceWords_inside word]
  | case3 inside c cs word outside ih =>
      obtain rfl : inside = false := by simpa using outside
      obtain ⟨w, cs', parts, hw, ends, rfl, rfl⟩ := exists_word word cs
      rw [ih, parts, replaceWords_word hw (List.cons_ne_nil _ _) ends, h _ (List.cons_ne_nil _ _) hw]
  | case4 inside c cs gap ih => rw [ih, replaceWords_gap (by simpa using gap)]

theorem replaceWords_rest (hw : ∀ d ∈ w, isWordChar d = true) :
    replaceWords f true (w ++ rest) = w ++ replaceWords f true rest := by
  induction w with
  | nil => rfl
  | cons d w ih =>
      obtain ⟨first, more⟩ := List.forall_mem_cons.mp hw
      rw [List.cons_append, replaceWords_inside first, ih more, List.cons_append]

/-- A character stays where the text does not start with a word that is replaced. -/
theorem replaceWords_keep
    (h : isWordChar c = true → inside = false → f (c :: rest.takeWhile isWordChar) = c :: rest.takeWhile isWordChar) :
    replaceWords f inside (c :: rest) = c :: replaceWords f (isWordChar c) rest := by
  cases word : isWordChar c with
  | false => exact replaceWords_gap word
  | true =>
      cases inside with
      | true => exact replaceWords_inside word
      | false =>
          obtain ⟨w, rest', parts, hw, ends, rfl, rfl⟩ := exists_word word rest
          obtain ⟨_, more⟩ := List.forall_mem_cons.mp hw
          have copied : replaceWords f true (_ ++ rest.dropWhile isWordChar) = _ := replaceWords_rest more
          rw [List.takeWhile_append_dropWhile, replaceWords_of_endsWord ends] at copied
          rw [copied, parts, replaceWords_word hw (List.cons_ne_nil _ _) ends, h word rfl, List.cons_append]

theorem replaceWords_self (h : ∀ w, f w = w) : replaceWords f inside cs = cs := by
  induction cs generalizing inside with
  | nil => simp
  | cons c cs ih => rw [replaceWords_keep fun _ _ => h _, ih]

/-! ## One name -/

theorem isBoundary_some {c : Char} (h : isWordChar c = true) (rest : List Char) :
    isBoundary (some c) rest.head? = true ↔ EndsWord rest := by
  cases rest <;> simp [isBoundary, EndsWord, h]

/-- A name of word characters is replaced where it is a word. -/
theorem replaceName_eq (hn : ∀ d ∈ name, isWordChar d = true) (filled : name ≠ []) :
    replaceName name shown before cs =
      replaceWords (fun w => if w = name then shown else w) ((before.map isWordChar).getD false) cs := by
  have last : name.getLast? = some (name.getLast filled) := List.getLast?_eq_some_getLast filled
  have word := hn _ (List.getLast_mem filled)
  have in_name : ∀ {c rest tail}, name ++ tail = c :: rest → isWordChar c = true := by
    intro c rest tail parts
    obtain ⟨d, more, rfl⟩ := List.exists_cons_of_ne_nil filled
    exact (List.cons.inj parts).1 ▸ hn d List.mem_cons_self
  -- Where the text starts with no word that is the name, its first character stays.
  have stays : ∀ {c rest inside}, (inside = false → ∀ tail, name ++ tail = c :: rest → ¬EndsWord tail) →
      replaceWords (fun w => if w = name then shown else w) inside (c :: rest) =
        c :: replaceWords (fun w => if w = name then shown else w) (isWordChar c) rest := by
    intro c rest inside h
    apply replaceWords_keep
    intro hc outside
    obtain ⟨w, rest', parts, _, ends, rfl, rfl⟩ := exists_word hc rest
    rw [if_neg]
    intro same
    exact h outside _ (same ▸ parts.symm) ends
  fun_induction replaceName name shown before cs with
  | case1 => simp
  | case2 before c rest boundary tail found after ih =>
      have parts : name ++ tail = c :: rest := List.isPrefixOf?_eq_some_iff_append_eq.mp found
      rw [last, isBoundary_some word] at after
      have dropped : rest.drop (name.length - 1) = tail := by
        obtain ⟨d, more, rfl⟩ := List.exists_cons_of_ne_nil filled
        obtain ⟨rfl, rfl⟩ := List.cons.inj parts
        simp
      have outside : (before.map isWordChar).getD false = false := by
        have first : isWordChar c = true := in_name parts
        simpa [isBoundary, first] using boundary
      rw [ih, dropped, replaceWords_of_endsWord after, outside, ← parts, replaceWords_word hn filled after, if_pos rfl]
  | case3 before c rest boundary tail found after ih =>
      rw [last, isBoundary_some word] at after
      rw [ih, stays]
      · rfl
      · intro _ tail' parts ends
        have same : name ++ tail = c :: rest := List.isPrefixOf?_eq_some_iff_append_eq.mp found
        exact after (List.append_cancel_left (parts.trans same.symm) ▸ ends)
  | case4 before c rest boundary missing ih =>
      rw [ih, stays]
      · rfl
      · intro _ tail parts
        rw [List.isPrefixOf?_eq_some_iff_append_eq.mpr parts] at missing
        cases missing
  | case5 before c rest boundary ih =>
      rw [ih, stays]
      · rfl
      · intro outside tail parts
        refine absurd ?_ boundary
        simp [isBoundary, outside, in_name parts]

/-! ## All names -/

/-- A name as a word: it has characters, all of them word characters, and the first is no digit. -/
structure NameWord (w : List Char) : Prop where
  filled : w ≠ []
  word : ∀ c ∈ w, isWordChar c = true
  front : ∀ c ∈ w.head?, isDigit c = false

/-- The words that start with a digit are kept. -/
def KeepsNumerals (f : List Char → List Char) : Prop := ∀ c w, isDigit c = true → f (c :: w) = c :: w

/-- All words of the text start with a digit. -/
def NumeralWords (cs : List Char) : Prop := ∀ f, KeepsNumerals f → replaceWords f false cs = cs

/-- What a word is shown as: the number that it names, or else itself. -/
def shownWord (es : Entries String Number) (w : List Char) : List Char :=
  ((es.get? (String.ofList w)).map fun a => (shownInText a).toList).getD w

variable {es es' : Entries String Number}

theorem shownWord_of_get? {a : Number} (h : es.get? (String.ofList w) = some a) :
    shownWord es w = (shownInText a).toList := by
  simp [shownWord, h]

theorem shownWord_of_not_mem (h : String.ofList w ∉ es.names) : shownWord es w = w := by
  simp [shownWord, Entries.get?_eq_none h]

theorem shownWord_of_perm (h : es.Perm es') (distinct : es.names.Nodup) : shownWord es = shownWord es' := by
  funext w
  rw [shownWord, shownWord, Entries.get?_of_perm h distinct]

theorem keepsNumerals_shownWord (h : ∀ n ∈ es.names, NameWord n.toList) : KeepsNumerals (shownWord es) := by
  intro c w digit
  refine shownWord_of_not_mem fun there => ?_
  have front := (h _ there).front c (by simp)
  exact Bool.false_ne_true (front.symm.trans digit)

theorem foldl_replaceName (distinct : es.names.Nodup) (words : ∀ n ∈ es.names, NameWord n.toList)
    (numerals : ∀ e ∈ es, NumeralWords (shownInText e.2).toList) (cs : List Char) :
    es.foldl (fun cs b => replaceName b.1.toList (shownInText b.2).toList none cs) cs =
      replaceWords (shownWord es) false cs := by
  induction es generalizing cs with
  | nil => exact (replaceWords_self fun _ => rfl).symm
  | cons e es ih =>
      obtain ⟨n, a⟩ := e
      obtain ⟨new, distinct⟩ := List.nodup_cons.mp distinct
      obtain ⟨word, words⟩ := List.forall_mem_cons.mp words
      obtain ⟨numeral, numerals⟩ := List.forall_mem_cons.mp numerals
      rw [List.foldl_cons, ih distinct words numerals, replaceName_eq word.word word.filled]
      refine replaceWords_replaceWords.trans (replaceWords_congr fun w filled hw => ?_)
      by_cases same : w = n.toList
      · subst same
        rw [if_pos rfl, numeral _ (keepsNumerals_shownWord words)]
        exact (shownWord_of_get? (by simp [Entries.get?])).symm
      · have other : n ≠ String.ofList w := fun named => same (by simp [named])
        have alone : replaceWords (shownWord es) false (w ++ []) = shownWord es w ++ [] := by
          rw [replaceWords_word hw filled endsWord_nil, replaceWords_nil]
        rw [List.append_nil, List.append_nil] at alone
        simp [same, alone, shownWord, Entries.get?, other]

/-- A text with the names of a store replaced, given that they are names and that the numbers are no words. -/
theorem Store.toList_substitute {store : Store} (distinct : store.names.Nodup)
    (words : ∀ n ∈ store.names, NameWord n.toList)
    (numerals : ∀ b ∈ store.bindings, NumeralWords (shownInText b.2).toList) (text : String) :
    (store.substitute text).toList = replaceWords (shownWord store.bindings) false text.toList := by
  have sorted : store.byLength.Perm store.bindings := List.mergeSort_perm _ _
  have distinct' : store.byLength.names.Nodup := (sorted.map Prod.fst).nodup_iff.mpr distinct
  have words' : ∀ n ∈ store.byLength.names, NameWord n.toList := fun n hn =>
    words n ((sorted.map Prod.fst).subset hn)
  rw [substitute, String.toList_ofList, foldl_replaceName distinct' words' fun b hb => numerals b (sorted.subset hb),
    shownWord_of_perm sorted distinct']

end Surd
