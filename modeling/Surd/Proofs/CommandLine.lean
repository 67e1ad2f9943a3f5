import Surd.CommandLine
import Surd.Proofs.Session.Sound
import Surd.Proofs.Store.Expansion

/-!
# The status of a run

A run with arguments handles one line in a new session and tells by its status whether the text that it prints starts
like an error. Every error text does. So do two texts that are no errors: that of a definition whose name starts with
`Error`, and that of an expansion which starts with `Error` already before anything is replaced. No other line that is
carried out in a new session is answered with such a text (`CommandLine.looksLikeError_of_done`), so the status tells
exactly whether the line failed or is one of these (`CommandLine.status_of_run`).
-/

namespace Surd

variable {p w rest cs : List Char} {c : Char} {f : List Char → List Char} {a : Number} {text name : String}

/-! ## Texts that start with a word -/

/-- What a text starts with is found in front of the place where the text goes on with other characters. -/
theorem prefix_append_iff_of_ends {q : Char → Bool} (all : ∀ c ∈ p, q c = true)
    (ends : ∀ c ∈ rest.head?, q c = false) : p <+: w ++ rest ↔ p <+: w := by
  induction w generalizing p with
  | nil =>
      cases p with
      | nil => exact iff_of_true List.nil_prefix List.nil_prefix
      | cons c p =>
          refine iff_of_false ?_ fun starts => absurd (List.prefix_nil.mp starts) (List.cons_ne_nil c p)
          rintro ⟨tail, rfl⟩
          exact Bool.false_ne_true ((ends c rfl).symm.trans (all c List.mem_cons_self))
  | cons d w ih =>
      cases p with
      | nil => exact iff_of_true List.nil_prefix List.nil_prefix
      | cons c p =>
          rw [List.cons_append, List.cons_prefix_cons, List.cons_prefix_cons, ih (List.forall_mem_cons.mp all).2]

/-- A text starts with a word after its words were replaced as before, if no word that is replaced starts with it and no
replacement starts with its first letter. -/
theorem prefix_replaceWords_iff (word : ∀ d ∈ c :: p, isWordChar d = true)
    (apart : ∀ w, f w = w ∨ ¬c :: p <+: w ∧ ∃ d tail, f w = d :: tail ∧ d ≠ c) :
    c :: p <+: replaceWords f false cs ↔ c :: p <+: cs := by
  cases cs with
  | nil => rw [replaceWords_nil]
  | cons d rest =>
      cases start : isWordChar d with
      | false =>
          have other : c ≠ d := by
            rintro rfl
            exact Bool.false_ne_true (start.symm.trans (word c List.mem_cons_self))
          rw [replaceWords_gap start, List.cons_prefix_cons, List.cons_prefix_cons]
          exact iff_of_false (fun h => other h.1) fun h => other h.1
      | true =>
          obtain ⟨w, rest', parts, hw, ends, rfl, rfl⟩ := exists_word start rest
          rw [parts, replaceWords_word hw (List.cons_ne_nil _ _) ends, prefix_append_iff_of_ends word ends]
          obtain same | ⟨unlike, e, tail, replaced, other⟩ := apart (d :: rest.takeWhile isWordChar)
          · rw [same, prefix_append_iff_of_ends word (endsWord_replaceWords ends)]
          · rw [replaced, List.cons_append, List.cons_prefix_cons]
            exact iff_of_false (fun h => other h.1.symm) unlike

theorem NumeralText.exists_digit (h : NumeralText cs) : ∃ c tail, cs = c :: tail ∧ isDigit c = true := by
  cases h with
  | whole digit filled =>
      obtain ⟨c, tail, rfl⟩ := List.exists_cons_of_ne_nil filled
      exact ⟨c, tail, rfl, digit c List.mem_cons_self⟩
  | point digit filled =>
      obtain ⟨c, tail, rfl⟩ := List.exists_cons_of_ne_nil filled
      exact ⟨c, _, rfl, digit c List.mem_cons_self⟩

/-- A number that is put into a text starts with a digit or a parenthesis. -/
theorem exists_cons_shownInText (h : a.Bounded) :
    ∃ c tail, (shownInText a).toList = c :: tail ∧ isLetter c = false := by
  have other : ∀ c, isDigit c = true → isLetter c = false := fun c digit => by
    by_contra letter
    exact Bool.false_ne_true ((isDigit_of_isLetter (by simpa using letter)).symm.trans digit)
  obtain ⟨size, text, ⟨_, shown, _⟩ | ⟨_, shown, _⟩⟩ := exists_size_shownInText h
  · exact ⟨_, _, shown, by decide⟩
  · rw [shown]
    cases text with
    | plain numeral =>
        obtain ⟨c, tail, rfl, digit⟩ := numeral.exists_digit
        exact ⟨c, tail, rfl, other c digit⟩
    | power numeral =>
        obtain ⟨c, tail, rfl, digit⟩ := numeral.exists_digit
        exact ⟨c, _, rfl, other c digit⟩

/-- An expansion starts with a word that no bound name starts with exactly if the text does. -/
theorem Store.Plain.prefix_substitute_iff {s : Store} (h : s.Plain) (letter : isLetter c = true)
    (word : ∀ d ∈ c :: p, isWordChar d = true) (unbound : ∀ n ∈ s.names, ¬c :: p <+: n.toList) (text : String) :
    c :: p <+: (s.substitute text).toList ↔ c :: p <+: text.toList := by
  rw [h.toList_substitute]
  apply prefix_replaceWords_iff word
  intro w
  cases found : s.bindings.get? (String.ofList w) with
  | none => exact .inl (by simp [shownWord, found])
  | some a =>
      have bound := Entries.mem_of_get? found
      obtain ⟨d, tail, shown, other⟩ := exists_cons_shownInText (h.bounded _ bound)
      refine .inr ⟨?_, d, tail, by rw [shownWord_of_get? found, shown], ?_⟩
      · have unlike := unbound _ (List.mem_map_of_mem bound)
        rwa [String.toList_ofList] at unlike
      · rintro rfl
        exact Bool.false_ne_true (other.symm.trans letter)

theorem exists_toList_intercalate (separator first : String) (more : List String) :
    ∃ rest, (separator.intercalate (first :: more)).toList = first.toList ++ rest := by
  rw [String.toList_intercalate, List.map_cons]
  cases more with
  | nil => exact ⟨[], by rw [List.map_nil, List.intercalate_singleton, List.append_nil]⟩
  | cons => exact ⟨_, by rw [List.map_cons, List.intercalate_cons_cons, List.append_assoc]⟩

namespace CommandLine

open Session (splitAtSpace definition? valueText?)

/-! ## Texts that start like an error -/

theorem looksLikeError_iff : looksLikeError text = true ↔ "Error".toList <+: text.toList :=
  List.isPrefixOf_iff_prefix

theorem looksLikeError_of_head? (first : text.toList.head? = some c) (other : c ≠ 'E') :
    looksLikeError text = false := by
  obtain ⟨rest, chars⟩ := List.head?_eq_some_iff.mp first
  rw [← Bool.not_eq_true, looksLikeError_iff, chars]
  exact fun starts => other (List.cons_prefix_cons.mp starts).1.symm

theorem looksLikeError_intercalate {first : String} (start : first.toList.head? = some c) (other : c ≠ 'E')
    (separator : String) (more : List String) : looksLikeError (separator.intercalate (first :: more)) = false := by
  obtain ⟨rest, chars⟩ := exists_toList_intercalate separator first more
  exact looksLikeError_of_head? (by rw [chars, List.head?_append, start]; rfl) other

/-- What follows a space does not matter. -/
theorem looksLikeError_append {back : String} (space : back.toList.head? = some ' ') :
    looksLikeError (name ++ back) = looksLikeError name := by
  have letters : "Error".toList.all (· != ' ') = true := by decide
  rw [Bool.eq_iff_iff, looksLikeError_iff, looksLikeError_iff, String.toList_append]
  refine prefix_append_iff_of_ends (List.all_eq_true.mp letters) fun c first => ?_
  obtain rfl : ' ' = c := Option.some.inj (space.symm.trans first)
  rfl

theorem looksLikeError_append_of (h : looksLikeError text = true) (back : String) :
    looksLikeError (text ++ back) = true := by
  rw [looksLikeError_iff, String.toList_append]
  exact (looksLikeError_iff.mp h).trans (List.prefix_append _ _)

/-- Every error text starts like one. -/
theorem looksLikeError_errorText (code : String) (message : Option String) :
    looksLikeError (errorText code message) = true := by
  have start : looksLikeError "Error " = true := by decide
  have first := looksLikeError_append_of (looksLikeError_append_of (looksLikeError_append_of start code) ": ")
    (headline code)
  unfold errorText
  cases message with
  | none => exact first
  | some m =>
      dsimp only
      split
      · exact first
      · exact looksLikeError_append_of (looksLikeError_append_of first _) m

/-! ## Lines that are carried out -/

/-- Whether a line without blanks at its ends is answered with a text that starts like an error although it can be
carried out: the definition of a name or the expansion of a text that starts so. -/
def echoesError (cs : List Char) : Bool :=
  match cs with
  | ':' :: rest =>
    String.ofList (splitAtSpace rest).1 = "expand" && looksLikeError (String.ofList (trim (splitAtSpace rest).2))
  | cs =>
    match definition? cs with
    | some (name, _) => looksLikeError name
    | none => false

variable {lib : Elementary} {world : World} {s s' : Session} {line shown : String} {value : Json}

/-- A setting that was changed is a known one. -/
theorem looksLikeError_of_valid (h : Settings.isValid? (codePoints name) value = some true) :
    looksLikeError name = false := by
  have known : ∀ key ∈ Settings.defaults.names, key.head? ≠ some (CodePoint.ofChar 'E') := by decide
  obtain ⟨default, found, _⟩ := Option.map_eq_some_iff.mp h
  have other := known _ (List.mem_map_of_mem (Entries.mem_of_get? found))
  rw [codePoints, List.head?_map] at other
  rw [← Bool.not_eq_true, looksLikeError_iff]
  rintro ⟨rest, chars⟩
  rw [← chars] at other
  exact other rfl

theorem looksLikeError_of_change {disk : Disk} {argument : List Char}
    (done : s.change disk argument = .ok (s', .done shown)) : looksLikeError shown = false := by
  obtain ⟨value, _, done⟩ := exists_of_bind_eq_ok done
  dsimp only at done
  split at done
  · rename_i updated
    obtain ⟨_, echo⟩ := Prod.mk.inj (Except.ok.inj done)
    obtain rfl := Reply.done.inj echo
    rw [String.append_assoc, looksLikeError_append (by simp)]
    exact looksLikeError_of_valid (SettingsFile.update_eq_ok updated).1
  · rename_i stop _ _
    cases stop <;> cases done

/-- Replacing the constants does not make a text start like an error. -/
theorem looksLikeError_substitute (text : String) :
    looksLikeError (Store.initial.substitute text) = looksLikeError text := by
  rw [Bool.eq_iff_iff, looksLikeError_iff, looksLikeError_iff]
  have letters := List.all_eq_true.mp (by decide : ['E', 'r', 'r', 'o', 'r'].all isWordChar = true)
  have unbound : ∀ n ∈ Store.initial.names, ¬['E', 'r', 'r', 'o', 'r'] <+: n.toList := by decide
  exact Store.plain_initial.prefix_substitute_iff (by decide) letters unbound text

theorem looksLikeError_helpText : looksLikeError Session.helpText = false := by
  unfold Session.helpText
  -- the lines after the first start with spaces, so the first alone is looked at
  iterate 10 rw [looksLikeError_append (by simp)]
  decide +kernel

theorem looksLikeError_of_remove (done : s.remove name = .ok (s', .done shown)) : looksLikeError shown = false := by
  unfold Session.remove at done
  split at done
  · cases done
    exact looksLikeError_of_head? (c := 'D') (by simp) (by decide)
  · cases done

theorem looksLikeError_of_copy {clipboard : Clipboard} (done : s.copy clipboard = .ok (s', .done shown)) :
    looksLikeError shown = false := by
  unfold Session.copy at done
  split at done
  · cases done
  · cases done
  · cases done
    exact looksLikeError_of_head? (c := 'C') (by simp) (by decide)

/-- What a command is answered with in a new session, if it is carried out. -/
theorem looksLikeError_of_command (store : s.store = .initial) (history : s.history = []) {rest : List Char}
    (done : s.command world rest = .ok (s', .done shown)) : looksLikeError shown = echoesError (':' :: rest) := by
  have elsewhere : ∀ {word : String}, String.ofList (splitAtSpace rest).1 = word → word ≠ "expand" →
      echoesError (':' :: rest) = false := by
    rintro _ rfl other
    exact Bool.and_eq_false_imp.mpr fun expands => absurd (of_decide_eq_true expands) other
  unfold Session.command at done
  dsimp only at done
  split_ifs at done with quit help vars del clear hist expand copy set
  · cases done
    obtain word | word | word := quit <;> exact (elsewhere word (by decide)).symm
  · cases done
    rw [elsewhere help (by decide)]
    exact looksLikeError_helpText
  · cases done
    rw [elsewhere vars (by decide), Session.listing, store]
    exact looksLikeError_intercalate (c := 'e') (by simp) (by decide) _ _
  · rw [elsewhere del (by decide)]
    exact looksLikeError_of_remove done
  · cases done
    rw [elsewhere clear (by decide)]
    decide
  · cases done
    rw [elsewhere hist (by decide), Session.historyText, history]
    decide
  · cases done
    rw [store, looksLikeError_substitute, echoesError, decide_eq_true expand, Bool.true_and]
  · rw [elsewhere copy (by decide)]
    exact looksLikeError_of_copy done
  · rw [elsewhere set (by decide)]
    exact looksLikeError_of_change done
  · cases done

/-- The lines that are shown for a value start with a sign. -/
theorem looksLikeError_of_resultLines {settings : Settings} {exact : Option RadicalSum} {lines : List String}
    (done : Session.resultLines settings a exact = .ok lines) : looksLikeError ("\n".intercalate lines) = false := by
  obtain ⟨⟨number, cut⟩, _, done⟩ := exists_of_bind_eq_ok done
  have signed : ∀ more, looksLikeError ("\n".intercalate
      (((if cut then Session.approximately ++ " " else "= ") ++ number) :: more)) = false := by
    intro more
    cases cut with
    | true => exact looksLikeError_intercalate (c := '≈') (by simp [Session.approximately]) (by decide) _ _
    | false => exact looksLikeError_intercalate (c := '=') (by simp) (by decide) _ _
  dsimp only at done
  split at done
  · obtain rfl := Except.ok.inj done
    exact signed _
  · split at done
    · obtain ⟨more, _, done⟩ := exists_of_bind_eq_ok done
      obtain rfl := Except.ok.inj done
      exact signed _
    · obtain rfl := Except.ok.inj done
      exact signed _

theorem looksLikeError_of_expression (done : s.expression lib line = .ok (s', .done shown)) :
    looksLikeError shown = false := by
  obtain ⟨r, _, done⟩ := exists_of_bind_eq_ok done
  cases r with
  | failure => cases done
  | value w =>
      obtain ⟨lines, written, done⟩ := exists_of_bind_eq_ok done
      obtain ⟨display, _, done⟩ := exists_of_bind_eq_ok done
      cases done
      exact looksLikeError_of_resultLines (lift_eq_ok written)

/-- A definition is answered with its name first. -/
theorem looksLikeError_of_definition (done : s.definition lib name text = .ok (s', .done shown)) :
    looksLikeError shown = looksLikeError name := by
  obtain ⟨r, _, done⟩ := exists_of_bind_eq_ok done
  cases r with
  | failure => cases done
  | value w =>
      obtain ⟨store, _, done⟩ := exists_of_bind_eq_ok done
      split at done
      · rename_i number cut _
        cases done
        rw [String.append_assoc]
        cases cut with
        | true => exact looksLikeError_append (by simp)
        | false => exact looksLikeError_append (by simp)
      · cases done

theorem echoesError_definition (defines : definition? cs = some (name, text)) :
    echoesError cs = looksLikeError name := by
  unfold echoesError
  split
  · cases defines
  · rw [defines]

theorem echoesError_expression (other : ∀ rest, cs ≠ ':' :: rest) (undefined : definition? cs = none) :
    echoesError cs = false := by
  unfold echoesError
  split
  · exact absurd rfl (other _)
  · rw [undefined]

theorem looksLikeError_of_dispatch (store : s.store = .initial) (history : s.history = [])
    (done : s.dispatch lib world cs = .ok (s', .done shown)) : looksLikeError shown = echoesError cs := by
  unfold Session.dispatch at done
  split at done
  · exact looksLikeError_of_command store history done
  · rename_i other
    split at done
    · rename_i defines
      rw [echoesError_definition defines]
      exact looksLikeError_of_definition done
    · rename_i undefined
      rw [echoesError_expression other undefined]
      exact looksLikeError_of_expression done

/-- A line that is carried out in a new session is answered with a text that starts like an error exactly if it defines
a name that starts so, or expands a text that does. -/
theorem looksLikeError_of_done (store : s.store = .initial) (history : s.history = [])
    (done : (s.handle lib world line).2 = .done shown) : looksLikeError shown = echoesError (trim line.toList) := by
  rw [Session.handle] at done
  cases chars : trim line.toList with
  | nil =>
      rw [chars] at done
      cases done
      decide
  | cons c rest =>
      rw [chars] at done
      dsimp only [List.isEmpty] at done
      cases outcome : s.dispatch lib world (c :: rest) with
      | ok r =>
          rw [outcome] at done
          exact looksLikeError_of_dispatch store history (outcome.trans (congrArg Except.ok (Prod.ext rfl done)))
      | error stop =>
          rw [outcome] at done
          cases stop <;> cases done

/-! ## Runs -/

/-- The line gives a setting a value that is nested too deeply. -/
def GivesTooDeep (nesting : Nat) (line : String) : Prop :=
  ∃ cs ∈ valueText? line, Json.ofText nesting cs = .error .tooDeep

theorem change_of_tooDeep {argument : List Char}
    (deep : Json.ofText s.nesting (splitAtSpace argument).2 = .error .tooDeep) (disk : Disk) :
    s.change disk argument = .error (.fault .nestedTooDeep) := by
  have unread : Session.settingValue s.nesting (splitAtSpace argument).2 = .error .nestedTooDeep := by
    rw [Session.settingValue, deep]
  rw [Session.change]
  dsimp only
  rw [unread]
  rfl

theorem command_set {rest : List Char} (set : String.ofList (splitAtSpace rest).1 = "set") :
    s.command world rest = s.change world.disk (trim (splitAtSpace rest).2) := by
  simp [Session.command, set]

theorem handle_of_givesTooDeep (deep : GivesTooDeep s.nesting line) :
    (s.handle lib world line).2 = .broken .nestedTooDeep := by
  obtain ⟨raw, value, deep⟩ := deep
  rw [valueText?] at value
  split at value
  · rename_i rest chars
    obtain ⟨set, argument⟩ : String.ofList (splitAtSpace rest).1 = "set" ∧
        some (splitAtSpace (trim (splitAtSpace rest).2)).2 = some raw := Option.ite_none_right_eq_some.mp value
    obtain rfl := Option.some.inj argument
    have stopped : s.dispatch lib world (':' :: rest) = .error (.fault .nestedTooDeep) := by
      rw [Session.dispatch, command_set set, change_of_tooDeep deep]
    rw [Session.handle, chars]
    dsimp only [List.isEmpty]
    rw [stopped]
    rfl
  · cases value

/-- A sound session meets no fault but this one. -/
theorem handle_broken_iff (sound : s.Sound) (regular : lib.Regular) {fault : Fault} :
    (s.handle lib world line).2 = .broken fault ↔ fault = .nestedTooDeep ∧ GivesTooDeep s.nesting line := by
  constructor
  · intro broken
    have deep : GivesTooDeep s.nesting line := by
      by_contra shallow
      obtain ⟨text, replied⟩ := sound.handle_replied regular world line fun cs value deep => shallow ⟨cs, value, deep⟩
      rw [broken] at replied
      cases replied
    rw [handle_of_givesTooDeep deep] at broken
    exact ⟨(Reply.broken.inj broken).symm, deep⟩
  · rintro ⟨rfl, deep⟩
    exact handle_of_givesTooDeep deep

variable {nesting : Nat} {file : SettingsFile} {arguments : List String}

/-- A run with arguments is the answer of a new session to them as one line. -/
theorem exists_run (legible : file.Legible nesting) (given : arguments ≠ []) (lib : Elementary)
    (worlds : Nat → World) (input : String) :
    ∃ settings s, file.load nesting = .ok settings ∧ Session.start nesting file (some settings) = .ok s ∧ s.Sound ∧
      run lib nesting worlds [] arguments input file = oneShot lib s (worlds 0) arguments := by
  obtain ⟨settings, loaded, stored⟩ := legible.load_returns
  have valid : ∀ given ∈ some settings, given.overDefaults.Valid := by
    rintro _ ⟨⟩
    rw [Settings.overDefaults_stored stored]
    exact stored.valid
  obtain ⟨s, started, sound⟩ := Session.exists_sound_start legible valid
  refine ⟨settings, s, loaded, started, sound, ?_⟩
  rw [run, if_neg (by simp), loaded, ok_bind, started, ok_bind, if_neg (by simpa using given)]

theorem status_eq_one_iff : status text = 1 ↔ looksLikeError text = true := by
  rw [status]
  split <;> simp [*]

theorem status_eq_one_or_zero (text : String) : status text = 1 ∨ status text = 0 := by
  rw [status]
  split
  · exact .inl rfl
  · exact .inr rfl

theorem oneShot_eq (lib : Elementary) (s : Session) (world : World) (arguments : List String) :
    oneShot lib s world arguments = (s.handle lib world (" ".intercalate arguments)).2.text?.map fun text =>
      ⟨status text, text ++ "\n", (s.handle lib world (" ".intercalate arguments)).1.file⟩ := by
  rw [oneShot, reported]
  cases (s.handle lib world (" ".intercalate arguments)).2 <;> rfl

/-- **The status of a run.** A run with arguments over a file that can be read ends unless the line gives a setting a
value that is nested too deeply. Its status is one or zero. It is one exactly if the line fails or is answered with a
text that starts like an error, which is so for the definition of a name and the expansion of a text that start so. This
holds whatever the disk and the clipboard do, and it is exact where whole numbers may have any number of digits. -/
theorem status_of_run (regular : lib.Regular) (legible : file.Legible nesting) (given : arguments ≠ [])
    (worlds : Nat → World) (input : String) (joined : " ".intercalate arguments = line) :
    ∃ settings s, file.load nesting = .ok settings ∧ Session.start nesting file (some settings) = .ok s ∧
      (∀ fault, run lib nesting worlds [] arguments input file = .error fault ↔
        fault = .nestedTooDeep ∧ GivesTooDeep nesting line) ∧
      (¬GivesTooDeep nesting line → ∃ report, run lib nesting worlds [] arguments input file = .ok report ∧
        (report.status = 1 ∨ report.status = 0) ∧
        (report.status = 1 ↔ (∃ code message, (s.handle lib (worlds 0) line).2 = .failed code message) ∨
          echoesError (trim line.toList) = true)) := by
  obtain ⟨settings, s, loaded, starts, sound, handled⟩ := exists_run legible given lib worlds input
  have started := Session.started_of_start starts
  refine ⟨settings, s, loaded, starts, ?_⟩
  rw [handled, oneShot_eq, joined]
  have broken : ∀ fault, (s.handle lib (worlds 0) line).2 = .broken fault ↔
      fault = .nestedTooDeep ∧ GivesTooDeep nesting line := by
    rw [← started.nesting]
    exact fun _ => handle_broken_iff sound regular
  simp only [← broken]
  cases reply : (s.handle lib (worlds 0) line).2 with
  | done text =>
      refine ⟨fun fault => iff_of_false nofun nofun, fun _ => ⟨_, rfl, status_eq_one_or_zero text, ?_⟩⟩
      rw [status_eq_one_iff, looksLikeError_of_done started.store started.history reply, or_iff_right]
      rintro ⟨_, _, ⟨⟩⟩
  | failed code message =>
      refine ⟨fun fault => iff_of_false nofun nofun, fun _ => ⟨_, rfl, status_eq_one_or_zero _, ?_⟩⟩
      rw [status_eq_one_iff]
      exact iff_of_true (looksLikeError_errorText code _) (.inl ⟨code, message, rfl⟩)
  | broken fault =>
      constructor
      · intro fault'
        exact ⟨fun stopped => congrArg Reply.broken (Except.error.inj stopped),
          fun stopped => congrArg Except.error (Reply.broken.inj stopped)⟩
      · exact fun shallow => absurd ((broken fault).mp reply).2 shallow

/-- The status of a run that defines a name is that of a failure, although the definition is carried out. -/
theorem status_of_run_define :
    (∃ report, run .atUnit 987 (fun _ => .calm) [] ["let", "Error", "=", "5"] "" .absent = .ok report ∧
        report.status = 1) ∧
      (Session.fresh.handle .atUnit .calm "let Error = 5").2 = .done "Error = 5" := by
  have joined : " ".intercalate ["let", "Error", "=", "5"] = "let Error = 5" := by decide
  have shallow : ¬GivesTooDeep 987 "let Error = 5" := by
    rintro ⟨cs, value, _⟩
    cases (by decide : valueText? "let Error = 5" = none).symm.trans value
  have legible : SettingsFile.absent.Legible 987 := trivial
  obtain ⟨_, _, _, _, _, ends⟩ :=
    status_of_run Elementary.regular_atUnit legible (by decide) (fun _ => .calm) "" joined
  obtain ⟨report, ended, _, one⟩ := ends shallow
  exact ⟨⟨report, ended, one.mpr (.inr (by decide))⟩, by decide +kernel⟩

end CommandLine

end Surd
