import Surd.Proofs.Token.Lexed
import Surd.Proofs.Store.Calls

/-!
# Reading a text with its names replaced

A shown number is read as a few tokens: a numeral, or a negation of it in parentheses. One that is shown with an
exponent is read as the numeral in front, a variable `e`, a sum or difference and the exponent. Reading a text whose
names are replaced gives these tokens in the place of each bound variable, and all other tokens as they were
(`lexed_replaceWords`), unless a bound variable touches a numeral.
-/

namespace Surd

/-- The names are identifiers of variables, each bound once, and no value is an infinity or "not a number". A name with
a line feed at its end, which can be bound too, is no identifier. -/
structure Store.Plain (s : Store) : Prop where
  distinct : s.names.Nodup
  named : ∀ n ∈ s.names, isName n = true ∧ '\n' ∉ n.toList
  noFunction : ∀ n ∈ s.names, functionNames.contains n = false
  bounded : ∀ b ∈ s.bindings, b.2.Bounded

namespace Lexeme

/-- The tokens of the text of a size. -/
def ofSize (cs : List Char) : List Lexeme :=
  match cs.dropWhile (· != 'e') with
  | _ :: sign :: ds =>
    [.number (String.ofList (cs.takeWhile (· != 'e'))), .variable "e",
      .binary (if sign = '-' then .sub else .add), .number (String.ofList ds)]
  | _ => [.number (String.ofList cs)]

/-- The tokens of a number as it is put into a text. -/
def ofShown (a : Number) : List Lexeme :=
  if a.isNegative then .opening "(" :: .negation :: (ofSize a.neg.shown.toList ++ [.closing ")"])
  else ofSize a.shown.toList

/-- A token with the number in its place if it is a bound variable. -/
def expand (s : Store) : Lexeme → List Lexeme
  | .variable n =>
    match s.get? n with
    | some a => ofShown a
    | none => [.variable n]
  | l => [l]

def isNumeral : Lexeme → Bool
  | .number _ => true
  | _ => false

/-- Whether a token is a variable that is bound in a store. -/
def isBound (s : Store) : Lexeme → Bool
  | .variable n => s.has n
  | _ => false

end Lexeme

/-- Whether the second of two tokens starts where the first one ends. -/
def Token.touches (t u : Token) : Prop := t.position + t.lexeme.source.length = u.position

/-- No bound variable touches a numeral. -/
def Token.Apart (s : Store) (ts : List Token) : Prop :=
  ts.IsChain fun t u => t.touches u →
    ¬(t.lexeme.isNumeral = true ∧ u.lexeme.isBound s = true) ∧
      ¬(t.lexeme.isBound s = true ∧ u.lexeme.isNumeral = true)

variable {f : List Char → List Char} {cs num rest : List Char} {last last' : Option Lexeme} {ls : List Lexeme}
  {ts : List Token} {a : Number} {s : Store} {c : Char} {inside : Bool} {position : Nat}

/-! ## Shown numbers -/

/-- A text that does not go on with a numeral in front of it. -/
def EndsNumeral (rest : List Char) : Prop := ∀ c ∈ rest.head?, isDigit c = false ∧ c ≠ '.'

theorem NumeralText.run (h : NumeralText cs) (ends : EndsNumeral rest) : NumeralRun cs rest := by
  cases h with
  | whole digit filled => exact .whole digit filled ends
  | point digit filled digit' _ => exact .point digit digit' (.inl filled) fun c hc => (ends c hc).1

theorem NumeralText.ne_exponent (h : NumeralText cs) : ∀ c ∈ cs, (c != 'e') = true := by
  intro c hc
  rw [bne_iff_ne]
  rintro rfl
  cases h.isNumeralChar _ hc

theorem ofSize_plain (h : NumeralText cs) : Lexeme.ofSize cs = [.number (String.ofList cs)] := by
  have none : cs.dropWhile (· != 'e') = [] := by
    have all : (cs ++ []).dropWhile (· != 'e') = [] := List.dropWhile_append_of_pos h.ne_exponent
    rwa [List.append_nil] at all
  rw [Lexeme.ofSize, none]

theorem ofSize_power (h : NumeralText cs) (negative : Bool) (ds : List Char) :
    Lexeme.ofSize (cs ++ 'e' :: (if negative then '-' else '+') :: ds) =
      [.number (String.ofList cs), .variable "e", .binary (if negative then .sub else .add),
        .number (String.ofList ds)] := by
  rw [Lexeme.ofSize, List.takeWhile_append_of_pos h.ne_exponent, List.dropWhile_append_of_pos h.ne_exponent]
  cases negative <;> simp

/-- A size is read to its end where no numeral goes on. -/
theorem SizeText.lexed (h : SizeText cs) (ends : EndsNumeral rest) (more : Lexed last' rest ls)
    (operand : Lexeme.beforeNegation last' = false) : Lexed last (cs ++ rest) (Lexeme.ofSize cs ++ ls) := by
  cases h with
  | plain h =>
      rw [ofSize_plain h]
      exact .numeral (h.run ends) (more.congr operand)
  | @power cs ds h negative digit filled =>
      rw [ofSize_power h, List.append_assoc, List.cons_append, List.cons_append]
      have exponent : Lexed (some (.binary (if negative then .sub else .add))) (ds ++ rest)
          (.number (String.ofList ds) :: ls) := .numeral (.whole digit filled ends) (more.congr operand)
      refine .numeral (h.run ?_) (.name (w := []) rfl (List.forall_mem_nil _) ?_ (.symbol ?_ exponent))
      · rintro _ ⟨⟩
        decide
      · cases negative <;> (rintro _ ⟨⟩; decide)
      · cases negative <;> rfl

theorem exists_size_shownInText (h : a.Bounded) :
    ∃ size, SizeText size ∧
      (a.isNegative = true ∧ (shownInText a).toList = '(' :: '-' :: (size ++ [')']) ∧ a.neg.shown.toList = size ∨
        a.isNegative = false ∧ (shownInText a).toList = size ∧ a.shown.toList = size) := by
  obtain ⟨size, text, shown, opposite⟩ := a.exists_size h
  refine ⟨size, text, ?_⟩
  cases sign : a.isNegative with
  | true => simp [shownInText, sign, shown, opposite sign, Decimal.signText]
  | false => simp [shownInText, sign, shown, Decimal.signText]

/-- A number that is put into a text is read as its tokens. -/
theorem lexed_shownInText (h : a.Bounded) (ends : EndsNumeral rest) (more : Lexed last' rest ls)
    (operand : Lexeme.beforeNegation last' = false) :
    Lexed last ((shownInText a).toList ++ rest) (Lexeme.ofShown a ++ ls) := by
  obtain ⟨size, text, ⟨sign, shown, opposite⟩ | ⟨sign, shown, same⟩⟩ := exists_size_shownInText h
  · have closing : Lexed (some (.number "")) (')' :: rest) (.closing ")" :: ls) := .symbol rfl (more.congr operand)
    have inner : Lexed (some .negation) (size ++ ')' :: rest) (Lexeme.ofSize size ++ .closing ")" :: ls) :=
      text.lexed (by rintro _ ⟨⟩; decide) closing rfl
    have whole : Lexed last ('(' :: '-' :: (size ++ ')' :: rest))
        (.opening "(" :: .negation :: (Lexeme.ofSize size ++ .closing ")" :: ls)) := .symbol rfl (.symbol rfl inner)
    simpa [Lexeme.ofShown, sign, shown, opposite] using whole
  · rw [Lexeme.ofShown, sign, if_neg Bool.false_ne_true, shown, same]
    exact text.lexed ends more operand

/-! ## Replacing names -/

/-- Letters, digits and underscores, and a letter first. -/
def IsIdentifier (cs : List Char) : Prop := cs.head?.any isLetter = true ∧ cs.all isNameChar = true

instance : DecidablePred IsIdentifier := fun cs =>
  inferInstanceAs (Decidable (cs.head?.any isLetter = true ∧ cs.all isNameChar = true))

theorem isIdentifier_cons : IsIdentifier (c :: rest) ↔ (isLetter c && rest.all isNameChar) = true := by
  rw [IsIdentifier, List.head?_cons, Option.any_some, List.all_cons, Bool.and_eq_true, Bool.and_eq_true]
  exact and_congr_right fun letter => and_iff_right (isNameChar_of_isLetter letter)

theorem IsIdentifier.nameWord (h : IsIdentifier cs) : NameWord cs := by
  obtain ⟨first, name⟩ := h
  cases cs with
  | nil => cases first
  | cons c w =>
      refine ⟨List.cons_ne_nil _ _, fun d hd => isWordChar_of_isNameChar (List.all_eq_true.mp name d hd), ?_⟩
      rintro _ ⟨⟩
      exact isDigit_of_isLetter first

theorem KeepsNumerals.replaceWords_digit (keeps : KeepsNumerals f) (h : isDigit c = true) :
    replaceWords f inside (c :: rest) = c :: replaceWords f true rest := by
  have word := isWordChar_of_isNameChar (isNameChar_of_isDigit h)
  rw [replaceWords_keep fun _ _ => keeps c _ h, word]

theorem KeepsNumerals.replaceWords_digits (keeps : KeepsNumerals f) {ds : List Char}
    (h : ∀ c ∈ ds, isDigit c = true) (filled : ds ≠ []) :
    replaceWords f inside (ds ++ rest) = ds ++ replaceWords f true rest := by
  induction ds generalizing inside with
  | nil => exact absurd rfl filled
  | cons d ds ih =>
      obtain ⟨first, more⟩ := List.forall_mem_cons.mp h
      rw [List.cons_append, keeps.replaceWords_digit first, List.cons_append]
      by_cases last : ds = []
      · subst last
        rfl
      · rw [ih more last]

theorem NumeralText.replaceWords (h : NumeralText cs) (keeps : KeepsNumerals f) :
    replaceWords f inside (cs ++ rest) = cs ++ replaceWords f true rest := by
  cases h with
  | whole digit filled => exact keeps.replaceWords_digits digit filled
  | point digit filled digit' filled' =>
      rw [List.append_assoc, keeps.replaceWords_digits digit filled, List.cons_append, replaceWords_gap (by decide),
        keeps.replaceWords_digits digit' filled', List.append_assoc, List.cons_append]

theorem SizeText.replaceWords (h : SizeText cs) (keeps : KeepsNumerals f) :
    replaceWords f inside (cs ++ rest) = cs ++ replaceWords f true rest := by
  cases h with
  | plain h => exact h.replaceWords keeps
  | power h negative digit filled =>
      -- The letter goes on with the word that the digits in front of it started.
      have sign : isWordChar (if negative then '-' else '+') = false := by cases negative <;> decide
      rw [List.append_assoc, h.replaceWords keeps, List.cons_append, replaceWords_inside (by decide), List.cons_append,
        replaceWords_gap sign, keeps.replaceWords_digits digit filled]
      simp

theorem numeralWords_shownInText (h : a.Bounded) : NumeralWords (shownInText a).toList := by
  intro f keeps
  obtain ⟨size, text, ⟨_, shown, _⟩ | ⟨_, shown, _⟩⟩ := exists_size_shownInText h
  · rw [shown, replaceWords_gap (by decide), replaceWords_gap (by decide), text.replaceWords keeps,
      replaceWords_gap (by decide), replaceWords_nil]
  · have whole : replaceWords f false (size ++ []) = size ++ _ := text.replaceWords keeps
    rwa [replaceWords_nil, List.append_nil, ← shown] at whole

namespace Store

/-! ## Plain stores -/

theorem isName_of_toList {name : String} (chars : name.toList = c :: rest) :
    isName name = (isLetter c && (if rest.getLast? = some '\n' then rest.dropLast else rest).all isNameChar) := by
  rw [isName, chars]

/-- A name that has the form of a variable's is an identifier, unless there is a line feed at its end. -/
theorem isName_of_not_feed {name : String} (other : name.toList.getLast? ≠ some '\n') :
    isName name = true ↔ IsIdentifier name.toList := by
  cases chars : name.toList with
  | nil =>
      rw [isName, chars]
      decide
  | cons c rest =>
      have last : rest.getLast? ≠ some '\n' := by
        intro feed
        obtain ⟨init, rfl⟩ := List.getLast?_eq_some_iff.mp feed
        rw [chars, ← List.cons_append, List.getLast?_concat] at other
        exact other rfl
      rw [isName_of_toList chars, if_neg last, isIdentifier_cons]

theorem plain_initial : initial.Plain where
  distinct := by decide
  named := by decide
  noFunction := by decide
  bounded := by decide

/-- Binding keeps a store plain. -/
theorem Plain.put {name : String} (h : s.Plain) (named : isName name = true ∧ '\n' ∉ name.toList)
    (noFunction : functionNames.contains name = false) (bounded : a.Bounded) :
    Plain ⟨s.bindings.put name a⟩ where
  distinct := Entries.nodup_names_put h.distinct name a
  named n hn := (Entries.mem_names_of_mem_names_put hn).elim (· ▸ named) (h.named n)
  noFunction n hn := (Entries.mem_names_of_mem_names_put hn).elim (· ▸ noFunction) (h.noFunction n)
  bounded b hb := (Entries.mem_of_mem_put hb).elim (· ▸ bounded) (h.bounded b)

theorem Plain.define {s' : Store} {name : String} (h : s.Plain) (line : '\n' ∉ name.toList) (bounded : a.Bounded)
    (defined : s.define name a = .ok s') : s'.Plain := by
  obtain ⟨bindable, rfl⟩ := define_eq_ok_iff.mp defined
  exact h.put ⟨bindable.form, line⟩ (by simpa using bindable.noFunction) bounded

theorem Plain.setAnswer (h : s.Plain) (bounded : a.Bounded) : (s.setAnswer a).Plain :=
  h.put (by decide) (by decide) bounded

end Store

namespace Store.Plain

theorem identifier (h : s.Plain) : ∀ n ∈ s.names, IsIdentifier n.toList := by
  intro n hn
  obtain ⟨name, line⟩ := h.named n hn
  exact (isName_of_not_feed fun feed => line (List.mem_of_getLast? feed)).mp name

theorem nameWord (h : s.Plain) : ∀ n ∈ s.names, NameWord n.toList := fun n hn => (h.identifier n hn).nameWord

theorem toList_substitute (h : s.Plain) (text : String) :
    (s.substitute text).toList = replaceWords (shownWord s.bindings) false text.toList :=
  Store.toList_substitute h.distinct h.nameWord (fun b hb => numeralWords_shownInText (h.bounded b hb)) text

theorem keepsNumerals (h : s.Plain) : KeepsNumerals (shownWord s.bindings) := keepsNumerals_shownWord h.nameWord

/-- The name of a function is not bound. -/
theorem get?_eq_none (h : s.Plain) {n : String} (function : functionNames.contains n = true) : s.get? n = none := by
  refine Entries.get?_eq_none fun there => ?_
  exact Bool.false_ne_true ((h.noFunction n there).symm.trans function)

end Store.Plain

theorem NumeralRun.replaceWords (run : NumeralRun num rest) (keeps : KeepsNumerals f) (inside : Bool) :
    ∃ inside', replaceWords f inside (num ++ rest) = num ++ replaceWords f inside' rest := by
  have digits (ds rest : List Char) (inside : Bool) (digit : ∀ c ∈ ds, isDigit c = true) :
      ∃ inside', Surd.replaceWords f inside (ds ++ rest) = ds ++ Surd.replaceWords f inside' rest := by
    by_cases none : ds = []
    · exact ⟨inside, by rw [none]; rfl⟩
    · exact ⟨true, keeps.replaceWords_digits digit none⟩
  cases run with
  | whole digit => exact digits _ _ _ digit
  | @point ds fraction _ digit digit' =>
      obtain ⟨_, front⟩ := digits ds ('.' :: (fraction ++ rest)) inside digit
      obtain ⟨inside', back⟩ := digits fraction rest false digit'
      exact ⟨inside', by simp [front, replaceWords_gap (show isWordChar '.' = false by decide), back]⟩

/-! ## Reading what was replaced -/

/-- Where a name ends in a text that is read, so does the word. -/
theorem Scanned.endsWord (h : Scanned position last rest ts) (ends : ∀ d ∈ rest.head?, isNameChar d = false) :
    EndsWord rest := by
  cases h with
  | nil => exact endsWord_nil
  | blank blank => exact endsWord_cons.mpr (isWordChar_of_isBlank blank)
  | numeral run =>
      obtain ⟨d, tail, rfl, _, starts⟩ := run.starts
      have digit : isDigit d = false := by
        by_contra digit
        exact Bool.false_ne_true ((ends d rfl).symm.trans (isNameChar_of_isDigit (by simpa using digit)))
      rw [startsNumeral, digit, Bool.false_or, Bool.and_eq_true, beq_iff_eq] at starts
      exact endsWord_cons.mpr (starts.1 ▸ by decide)
  | name letter =>
      have other := ends _ rfl
      rw [isNameChar_of_isLetter letter] at other
      cases other
  | symbol read => exact endsWord_cons.mpr (ofSymbol?_spec read).2.1

theorem replaceWords_name {w : List Char} (hw : ∀ d ∈ c :: w, isNameChar d = true) (ends : EndsWord rest)
    (unbound : inside = false → s.get? (String.ofList (c :: w)) = none) :
    replaceWords (shownWord s.bindings) inside (c :: w ++ rest) =
      c :: w ++ replaceWords (shownWord s.bindings) false rest := by
  have word : ∀ d ∈ c :: w, isWordChar d = true := fun d hd => isWordChar_of_isNameChar (hw d hd)
  cases inside with
  | true => rw [replaceWords_rest word, replaceWords_of_endsWord ends]
  | false =>
      have missing : s.bindings.get? (String.ofList (c :: w)) = none := unbound rfl
      have kept : shownWord s.bindings (c :: w) = c :: w := by rw [shownWord, missing]; rfl
      rw [replaceWords_word word (List.cons_ne_nil _ _) ends, kept]

theorem get?_of_isBound (h : s.Plain) {n : String} (free : (Lexeme.ofName n).isBound s = false) : s.get? n = none := by
  rw [Lexeme.ofName] at free
  split at free
  · rename_i function
    exact h.get?_eq_none function
  · exact Option.isSome_eq_false_iff.mp free |> Option.isNone_iff_eq_none.mp

theorem head?_replaceWords (h : s.Plain) (scanned : Scanned position last rest ts)
    (free : ∀ t ∈ ts.head?, t.position = position → t.lexeme.isBound s = false) (inside : Bool) :
    (replaceWords (shownWord s.bindings) inside rest).head? = rest.head? := by
  cases scanned with
  | nil => simp
  | blank blank =>
      rw [replaceWords_gap (isWordChar_of_isBlank blank)]
      rfl
  | numeral run =>
      obtain ⟨inside', replaced⟩ := run.replaceWords h.keepsNumerals inside
      obtain ⟨d, tail, rfl, _⟩ := run.starts
      rw [replaced]
      rfl
  | name letter hw ends more =>
      have unbound := get?_of_isBound h (free _ rfl rfl)
      rw [replaceWords_name (List.forall_mem_cons.mpr ⟨isNameChar_of_isLetter letter, hw⟩) (more.endsWord ends)
        fun _ => unbound]
      rfl
  | symbol read =>
      rw [replaceWords_gap (ofSymbol?_spec read).2.1]
      rfl

theorem expand_of_get? {n : String} (found : s.get? n = some a) : (Lexeme.variable n).expand s = Lexeme.ofShown a := by
  rw [Lexeme.expand, found]

theorem expand_of_not_isBound {l : Lexeme} (free : l.isBound s = false) : l.expand s = [l] := by
  cases l with
  | «variable» n =>
      have unbound : s.get? n = none := Option.isSome_eq_false_iff.mp free |> Option.isNone_iff_eq_none.mp
      rw [Lexeme.expand, unbound]
  | _ => rfl

theorem exists_of_isBound {n : String} (bound : (Lexeme.ofName n).isBound s = true) :
    Lexeme.ofName n = .variable n ∧ ∃ a, s.get? n = some a := by
  rw [Lexeme.ofName] at bound ⊢
  split at bound
  · cases bound
  · exact ⟨if_neg ‹_›, Option.isSome_iff_exists.mp bound⟩

/-- Where a point can be read, it starts a numeral. -/
theorem Scanned.exists_numeral (h : Scanned position last rest ts) (point : '.' ∈ rest.head?) :
    ∃ t ∈ ts.head?, t.position = position ∧ t.lexeme.isNumeral = true := by
  cases h with
  | nil => cases point
  | blank blank =>
      cases point
      cases blank
  | numeral => exact ⟨_, rfl, rfl, rfl⟩
  | name letter =>
      cases point
      cases letter
  | symbol read =>
      cases point
      exact absurd rfl (ofSymbol?_spec read).2.2.1

theorem expand_symbol {l : Lexeme} (h : Lexeme.ofSymbol? last c = some l) : l.expand s = [l] := by
  unfold Lexeme.ofSymbol? at h
  split at h
  case h_2 =>
    obtain rfl := Option.some.inj h
    split <;> rfl
  case h_9 => cases h
  all_goals
    obtain rfl := Option.some.inj h
    rfl

theorem lexed_replaceWords (h : s.Plain) (scanned : Scanned position last cs ts) (apart : Token.Apart s ts)
    (free : inside = true → ∀ t ∈ ts.head?, t.position = position → t.lexeme.isBound s = false)
    (same : Lexeme.beforeNegation last = Lexeme.beforeNegation last') :
    Lexed last' (replaceWords (shownWord s.bindings) inside cs) (ts.flatMap fun t => t.lexeme.expand s) := by
  induction scanned generalizing inside last' with
  | nil => simpa using Lexed.nil
  | blank blank _ ih =>
      rw [replaceWords_gap (isWordChar_of_isBlank blank)]
      exact .blank blank (ih apart (by simp) same)
  | @numeral position _ num rest ts run more ih =>
      obtain ⟨inside', replaced⟩ := run.replaceWords h.keepsNumerals inside
      -- What follows starts as before, since no bound variable touches the numeral.
      have next : ∀ t ∈ ts.head?, t.position = position + num.length → t.lexeme.isBound s = false := by
        intro t ht there
        obtain ⟨_, rfl⟩ := List.head?_eq_some_iff.mp ht
        have apart := ((List.isChain_cons_cons.mp apart).1 (by simp [Token.touches, Lexeme.source, there])).1
        simpa [Lexeme.isNumeral] using apart
      rw [replaced, List.flatMap_cons]
      exact .numeral (run.congr (head?_replaceWords h more next inside')) (ih apart.tail (fun _ => next) rfl)
  | @name position _ c w rest ts letter hw ends more ih =>
      have name : ∀ d ∈ c :: w, isNameChar d = true := List.forall_mem_cons.mpr ⟨isNameChar_of_isLetter letter, hw⟩
      have word := more.endsWord ends
      have later {last' : Option Lexeme} (same : _ = Lexeme.beforeNegation last') :
          Lexed last' (replaceWords (shownWord s.bindings) false rest) _ := ih apart.tail (by simp) same
      rw [List.flatMap_cons]
      cases bound : (Lexeme.ofName (String.ofList (c :: w))).isBound s with
      | false =>
          rw [replaceWords_name name word fun _ => get?_of_isBound h bound, expand_of_not_isBound bound]
          refine .name letter hw (fun d hd => ?_) (later rfl)
          exact isNameChar_of_not_isWordChar (endsWord_replaceWords word d hd)
      | true =>
          obtain ⟨variable_token, a, found⟩ := exists_of_isBound bound
          have outside : inside = false := by
            by_contra inside
            exact Bool.false_ne_true ((free (by simpa using inside) _ rfl rfl).symm.trans bound)
          have put : shownWord s.bindings (c :: w) = (shownInText a).toList := shownWord_of_get? found
          -- No numeral goes on after the number: a point would start a numeral that touches the variable.
          have ends : EndsNumeral (replaceWords (shownWord s.bindings) false rest) := by
            intro d hd
            rw [head?_replaceWords_of_endsWord word] at hd
            constructor
            · by_contra digit
              have name := isNameChar_of_isDigit (by simpa using digit)
              exact Bool.false_ne_true ((word d hd).symm.trans (isWordChar_of_isNameChar name))
            · rintro rfl
              obtain ⟨t, ht, there, numeral⟩ := more.exists_numeral hd
              obtain ⟨_, rfl⟩ := List.head?_eq_some_iff.mp ht
              have touching := (List.isChain_cons_cons.mp apart).1
                (by simp [Token.touches, there, Nat.add_comm])
              exact touching.2 ⟨bound, numeral⟩
          rw [outside, replaceWords_word (fun d hd => isWordChar_of_isNameChar (name d hd)) (List.cons_ne_nil _ _) word,
            put, variable_token, expand_of_get? found]
          have operand : Lexeme.beforeNegation (some (Lexeme.ofName (String.ofList (c :: w)))) = false := by
            rw [variable_token]
            rfl
          exact lexed_shownInText (h.bounded _ (Entries.mem_of_get? found)) ends (later rfl) operand
  | symbol read _ ih =>
      rw [replaceWords_gap (ofSymbol?_spec read).2.1, List.flatMap_cons, expand_symbol read]
      exact .symbol (ofSymbol?_congr same _ ▸ read) (ih apart.tail (by simp) rfl)

end Surd
