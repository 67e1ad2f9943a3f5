import Surd.Proofs.Store.Calls
import Surd.Proofs.Store.Expansion
import Surd.Proofs.Token.Tiling

/-!
# Names that can be bound

Two definitions say what a name is: a store looks at the form of a name before it binds it, and the scanner reads names
off a text. They agree but for a line feed at the end, which the store does not look at. So a name is bound exactly if
it is read as one variable and is no constant, or if it is a word with a line feed behind it, which no text refers to
(`Store.define_iff_token`).
-/

namespace Surd

variable {last : Option Lexeme} {cs rest : List Char} {l : Lexeme} {c : Char} {name w : String} {i : Nat}

/-! ## Texts of one token -/

/-- A text is one token exactly if that token is read from all of it. -/
theorem Token.ofText_eq_singleton_iff (whole : l.source.toList = cs) :
    ofText cs = .ok [⟨l, i⟩] ↔ i = 0 ∧ Reads none [] cs l := by
  constructor
  · intro scanned
    have alone : Scanned 0 none cs ([] ++ ⟨l, i⟩ :: []) := scanned_of_scan scanned
    obtain ⟨front, back, parts, there, _, read, _⟩ := alone.part
    have written : written ⟨l, i⟩ = cs := whole
    rw [written] at parts read
    have size := congrArg List.length parts
    rw [List.length_append, List.length_append] at size
    obtain rfl : front = [] := List.eq_nil_of_length_eq_zero (by omega)
    obtain rfl : back = [] := List.eq_nil_of_length_eq_zero (by omega)
    exact ⟨there, read⟩
  · rintro ⟨rfl, read⟩
    have scanned : Scanned 0 none (cs ++ []) [⟨l, 0⟩] := .token read .nil
    rw [List.append_nil] at scanned
    exact scan_of_scanned scanned

theorem ofSymbol?_ne_ofName : Lexeme.ofSymbol? last c ≠ some (Lexeme.ofName name) := by
  intro h
  rw [Lexeme.ofName] at h
  unfold Lexeme.ofSymbol? at h
  split at h
  case h_2 => split at h <;> split at h <;> cases h
  case h_9 => cases h
  all_goals split at h <;> cases h

/-- The names that are read are the identifiers. -/
theorem reads_ofName_iff : Reads last [] name.toList (Lexeme.ofName name) ↔ IsIdentifier name.toList := by
  constructor
  · generalize name.toList = cs
    generalize token : Lexeme.ofName name = l
    intro read
    cases read with
    | numeral =>
        rw [Lexeme.ofName] at token
        split at token <;> cases token
    | name letter hw =>
        rw [isIdentifier_cons, letter, List.all_eq_true.mpr hw]
        rfl
    | symbol read => exact absurd (token ▸ read) ofSymbol?_ne_ofName
  · intro word
    cases chars : name.toList with
    | nil =>
        rw [chars] at word
        cases word.1
    | cons c w =>
        rw [chars, isIdentifier_cons, Bool.and_eq_true, List.all_eq_true] at word
        have read : Reads last [] (c :: w) (Lexeme.ofName (String.ofList (c :: w))) :=
          .name word.1 word.2 (by simp)
        rwa [← chars, String.ofList_toList, chars] at read

/-- A text is one name exactly if it is an identifier. -/
theorem exists_ofText_ofName_iff :
    (∃ i, Token.ofText name.toList = .ok [⟨.ofName name, i⟩]) ↔ IsIdentifier name.toList := by
  have whole : (Lexeme.ofName name).source.toList = name.toList := by rw [source_ofName]
  have reads : Reads none [] name.toList (Lexeme.ofName name) ↔ IsIdentifier name.toList := reads_ofName_iff
  rw [← reads]
  constructor
  · rintro ⟨i, scanned⟩
    exact ((Token.ofText_eq_singleton_iff whole).mp scanned).2
  · exact fun read => ⟨0, (Token.ofText_eq_singleton_iff whole).mpr ⟨rfl, read⟩⟩

/-- A text is one variable exactly if it is an identifier and names no function. -/
theorem exists_ofText_variable_iff :
    (∃ i, Token.ofText name.toList = .ok [⟨.variable name, i⟩]) ↔
      IsIdentifier name.toList ∧ name ∉ functionNames := by
  by_cases function : name ∈ functionNames
  · have words : ∀ f ∈ functionNames, IsIdentifier f.toList := by decide
    obtain ⟨i, read⟩ := exists_ofText_ofName_iff.mpr (words name function)
    rw [Lexeme.ofName, if_pos (List.contains_iff_mem.mpr function)] at read
    refine iff_of_false ?_ fun h => h.2 function
    rintro ⟨j, read'⟩
    cases read.symm.trans read'
  · have named : Lexeme.ofName name = .variable name := if_neg fun h => function (List.contains_iff_mem.mp h)
    rw [and_iff_left function, ← exists_ofText_ofName_iff, named]

/-! ## Names of a store -/

namespace Store

theorem not_isIdentifier_append_feed : ¬IsIdentifier (w ++ "\n").toList := by
  rintro ⟨_, all⟩
  exact absurd (List.all_eq_true.mp all '\n' (by simp)) (by decide)

theorem isName_append_feed : isName (w ++ "\n") = true ↔ IsIdentifier w.toList := by
  cases chars : w.toList with
  | nil =>
      have alone : (w ++ "\n").toList = ['\n'] := by simp [chars]
      rw [isName_of_toList alone]
      decide
  | cons c init =>
      have fed : (w ++ "\n").toList = c :: (init ++ ['\n']) := by simp [chars]
      rw [isName_of_toList fed, if_pos List.getLast?_concat, List.dropLast_concat, isIdentifier_cons]

/-- A line feed at the end is not looked at. -/
theorem isName_iff :
    isName name = true ↔ IsIdentifier name.toList ∨ ∃ w, name = w ++ "\n" ∧ IsIdentifier w.toList := by
  by_cases feed : name.toList.getLast? = some '\n'
  · obtain ⟨init, chars⟩ := List.getLast?_eq_some_iff.mp feed
    obtain rfl : name = String.ofList init ++ "\n" := by
      rw [← String.toList_inj, chars, String.toList_append, String.toList_ofList]
      rfl
    rw [isName_append_feed, or_iff_right not_isIdentifier_append_feed]
    refine ⟨fun word => ⟨_, rfl, word⟩, ?_⟩
    rintro ⟨w, same, word⟩
    have same := congrArg String.toList same
    rw [String.toList_append, String.toList_append] at same
    rwa [List.append_cancel_right same]
  · rw [isName_of_not_feed feed, or_iff_left]
    rintro ⟨w, rfl, _⟩
    exact feed (by simp)

/-- The names of functions and constants have no line feed at their ends. -/
theorem append_feed_not_reserved (w : String) : w ++ "\n" ∉ functionNames ∧ isConstant (w ++ "\n") = false := by
  have plain : ∀ n ∈ functionNames ++ constants.names, '\n' ∉ n.toList := by decide
  have feed : '\n' ∈ (w ++ "\n").toList := by simp
  constructor
  · exact fun function => plain _ (List.mem_append_left _ function) feed
  · rw [← Bool.not_eq_true, isConstant_iff]
    exact fun constant => plain _ (List.mem_append_right _ constant) feed

theorem bindable_iff : Bindable name ↔
    IsIdentifier name.toList ∧ name ∉ functionNames ∧ isConstant name = false ∨
      ∃ w, name = w ++ "\n" ∧ IsIdentifier w.toList := by
  constructor
  · rintro ⟨form, noFunction, free⟩
    exact (isName_iff.mp form).imp_left fun word => ⟨word, noFunction, free⟩
  · rintro (⟨word, noFunction, free⟩ | ⟨w, rfl, word⟩)
    · exact ⟨isName_iff.mpr (.inl word), noFunction, free⟩
    · obtain ⟨noFunction, free⟩ := append_feed_not_reserved w
      exact ⟨isName_append_feed.mpr word, noFunction, free⟩

theorem define_answers (s : Store) (name : String) (value : Number) :
    s.define name value = .ok ⟨s.bindings.put name value⟩ ∨
      s.define name value = .error (.invalidName name) ∨ s.define name value = .error (.constantRedefined name) := by
  rw [define]
  split_ifs
  · exact .inr (.inl rfl)
  · exact .inr (.inr rfl)
  · exact .inl rfl

/-- **Which names can be bound.** A name is bound exactly if its text is read as one variable and it is no constant, or
if it is a word that is read as one name with a line feed behind it. Any other name is refused as invalid or as a
constant, and the store stays as it is. -/
theorem define_iff_token (s : Store) (name : String) (value : Number) :
    (s.define name value = .ok ⟨s.bindings.put name value⟩ ↔
      (∃ i, Token.ofText name.toList = .ok [⟨.variable name, i⟩]) ∧ isConstant name = false ∨
        ∃ w, name = w ++ "\n" ∧ ∃ i, Token.ofText w.toList = .ok [⟨.ofName w, i⟩]) ∧
    (s.define name value ≠ .ok ⟨s.bindings.put name value⟩ →
      (s.define name value = .error (.invalidName name) ∨ s.define name value = .error (.constantRedefined name)) ∧
        s.attempt (.define name value) = s) := by
  constructor
  · rw [define_eq_ok_iff, and_iff_left rfl, bindable_iff, exists_ofText_variable_iff, and_assoc]
    simp only [exists_ofText_ofName_iff]
  · intro refused
    have answer := (define_answers s name value).resolve_left refused
    refine ⟨answer, ?_⟩
    obtain invalid | constant := answer
    · exact attempt_of_error invalid
    · exact attempt_of_error constant

/-- A line feed behind a name is bound with it, and a blank is refused. -/
theorem define_iff_token_feed :
    (∃ s, initial.define "x\n" 1 = .ok s) ∧ initial.attempt (.define "x " 1) = initial := by
  have word : ∃ i, Token.ofText "x".toList = .ok [⟨.ofName "x", i⟩] := exists_ofText_ofName_iff.mpr (by decide)
  exact ⟨⟨_, (define_iff_token initial "x\n" 1).1.mpr (.inr ⟨"x", rfl, word⟩)⟩,
    ((define_iff_token initial "x " 1).2 nofun).2⟩

end Store

end Surd
