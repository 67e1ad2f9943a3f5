import Surd.Proofs.Session.Frame
import Surd.Proofs.Session.History
import Surd.Proofs.Session.Sound
import Mathlib.Data.List.DropRight

/-!
# The trace of a session

The log of a run says which expressions gave a value, and when the last answer was defined or removed instead. It looks
at the lines and at what they evaluate to, not at what the session makes of that. The log determines the history, the
text that can be copied and the last answer (`trace_after`).
-/

namespace Surd

namespace Session

variable {lib : Elementary} {world : World} {s s' : Session} {reply : Reply} {n : Nat} {cs rest : List Char}
  {name text line : String} {w : Worth}

/-! ## The log -/

/-- An expression that gave a value, with the settings under which the value was shown. -/
structure Success where
  line : String
  settings : Settings
  worth : Worth

/-- The lines shown for a success. -/
def Success.lines (r : Success) : Except Fault (List String) :=
  resultLines r.settings (.real r.worth.value) r.worth.exact

/-- The expression with the lines shown for it. -/
def Success.entry (r : Success) : Except Fault (String × List String) := do return (r.line, ← r.lines)

/-- What the log keeps of a line. -/
inductive Event where
  /-- An expression gave a value. -/
  | result (r : Success)
  /-- The name of the last answer was defined with a value. -/
  | replaced (value : Double)
  /-- The last answer was removed. -/
  | removed

/-- The value of a text, if it has one. -/
def value? (lib : Elementary) (s : Session) (text : String) : Option Worth :=
  match s.evaluate lib text with
  | .ok (.value w) => some w
  | _ => none

/-- Whether a command removes the last answer, by its name or with all others. -/
def removesAnswer (cs : List Char) : Bool :=
  let (word, argument) := splitAtSpace cs
  String.ofList word = "clear" || (String.ofList word = "del" && String.ofList (trim argument) = answerName)

/-- What the log keeps of a line without blanks at its ends. -/
def event? (lib : Elementary) (s : Session) : List Char → Option Event
  | [] => none
  | ':' :: rest => if removesAnswer rest then some .removed else none
  | cs =>
    match definition? cs with
    | some (name, text) => if name = answerName then (s.value? lib text).map fun w => .replaced w.value else none
    | none => (s.value? lib (String.ofList cs)).map fun w => .result ⟨String.ofList cs, s.settings, w⟩

/-- The log of lines that are handled one after the other. -/
def log (lib : Elementary) : Session → List (World × String) → List Event
  | _, [] => []
  | s, (world, line) :: lines => (s.event? lib (trim line.toList)).toList ++ log lib (s.handle lib world line).1 lines

def Event.success? : Event → Option Success
  | result r => some r
  | _ => none

/-- The successes of a log. -/
def successes (log : List Event) : List Success := log.filterMap Event.success?

/-- The last answer after an event. -/
def Event.answer? : Event → Option Number
  | result r => some (.real r.worth.value)
  | replaced value => some (.real value)
  | removed => none

/-- The last answer after a log, if there is one. -/
def answer? (log : List Event) : Option Number := log.getLast?.bind Event.answer?

theorem removesAnswer_iff : removesAnswer cs = true ↔ String.ofList (splitAtSpace cs).1 = "clear" ∨
    String.ofList (splitAtSpace cs).1 = "del" ∧ String.ofList (trim (splitAtSpace cs).2) = answerName := by
  rw [removesAnswer, Bool.or_eq_true, Bool.and_eq_true, decide_eq_true_iff, decide_eq_true_iff, decide_eq_true_iff]

/-- What is copied of shown lines: the exact sum, where it has a radical and a line of its own, and the number in the
first line otherwise, both without the sign in front. -/
def Copies (exact : Option RadicalSum) (lines : List String) (text : String) : Prop :=
  match withRadicals exact with
  | some _ => ∃ first, lines = [first, "= " ++ text]
  | none => ∃ sign ∈ ["= ", approximately ++ " "], ∃ more, lines = (sign ++ text) :: more

theorem value?_eq_some : s.value? lib text = some w ↔ s.evaluate lib text = .ok (.value w) := by
  rw [value?]
  split
  · rename_i evaluated
    rw [evaluated, Option.some_inj, Except.ok.injEq, Evaluation.Result.value.injEq]
  · rename_i other
    exact ⟨nofun, fun evaluated => absurd evaluated (other w)⟩

theorem event?_definition (defines : definition? cs = some (name, text)) :
    s.event? lib cs = if name = answerName then (s.value? lib text).map fun w => .replaced w.value else none := by
  unfold event?
  split
  · cases defines
  · cases defines
  · rw [defines]

theorem event?_expression (expression : IsExpression cs) :
    s.event? lib cs = (s.value? lib (String.ofList cs)).map fun w => .result ⟨String.ofList cs, s.settings, w⟩ := by
  obtain ⟨written, colon, undefined⟩ := expression
  unfold event?
  split
  · exact absurd rfl written
  · exact absurd rfl colon
  · rw [undefined]

/-! ## What a line does -/

/-- What a line does to the parts of a session that the log is about, by what the log keeps of it. -/
inductive Follows (s : Session) : Option Event → Session → Prop
  | quiet {s' : Session} (history : s'.history = s.history) (display : s'.lastDisplay = s.lastDisplay)
      (answer : s'.store.get? answerName = s.store.get? answerName) : Follows s none s'
  | result {r : Success} {lines : List String} {text : String} (shown : r.lines = .ok lines)
      (copied : Copies r.worth.exact lines text) :
      Follows s (some (.result r)) { s with
        store := s.store.setAnswer (.real r.worth.value)
        lastDisplay := some text
        history := s.remember r.line lines }
  | replaced (value : Double) : Follows s (some (.replaced value)) { s with store := s.store.setAnswer (.real value) }
  | removed {store : Store} (gone : (Entries.names s.store.bindings).Nodup → store.get? answerName = none) :
      Follows s (some .removed) { s with store }

/-- A line that leaves the session as it is. -/
theorem Follows.same : Follows s none s := .quiet rfl rfl rfl

theorem handle_of_dispatch {r : Session × Reply} (written : trim line.toList ≠ [])
    (h : s.dispatch lib world (trim line.toList) = .ok r) : s.handle lib world line = r := by
  unfold handle
  dsimp only
  rw [h, if_neg fun blank => written (List.isEmpty_iff.mp blank)]

theorem dispatch_definition (defines : definition? cs = some (name, text)) :
    s.dispatch lib world cs = s.definition lib name text := by
  unfold dispatch
  split
  · cases defines
  · rw [defines]

theorem dispatch_expression (expression : IsExpression cs) :
    s.dispatch lib world cs = s.expression lib (String.ofList cs) := by
  unfold dispatch
  split
  · exact absurd rfl expression.2.1
  · rw [expression.2.2]

/-! ### Expressions -/

/-- What is copied of a value is in the lines that are shown for it. -/
theorem copies_displayText {settings : Settings} {lines : List String}
    (shown : resultLines settings (.real w.value) w.exact = .ok lines) (copied : displayText settings w = .ok text) :
    Copies w.exact lines text := by
  obtain ⟨⟨number, cut⟩, written, shown⟩ := exists_of_bind_eq_ok shown
  rw [displayText, written] at copied
  rw [Copies]
  cases exact : withRadicals w.exact with
  | some e =>
      rw [exact] at shown copied
      obtain rfl := Except.ok.inj shown
      obtain rfl := Except.ok.inj copied
      exact ⟨_, rfl⟩
  | none =>
      rw [exact] at shown copied
      obtain rfl := Except.ok.inj copied
      have sign : (if cut then approximately ++ " " else "= ") ∈ ["= ", approximately ++ " "] := by
        cases cut <;> decide
      refine ⟨_, sign, ?_⟩
      dsimp only at shown
      split at shown
      · obtain ⟨more, _, shown⟩ := exists_of_bind_eq_ok shown
        exact ⟨more, (Except.ok.inj shown).symm⟩
      · exact ⟨[], (Except.ok.inj shown).symm⟩

theorem expression_eq {lines : List String} (evaluated : s.evaluate lib line = .ok (.value w))
    (shown : resultLines s.settings (.real w.value) w.exact = .ok lines)
    (copied : displayText s.settings w = .ok text) :
    s.expression lib line = .ok ({ s with
      store := s.store.setAnswer (.real w.value)
      lastDisplay := some text
      history := s.remember line lines }, .done ("\n".intercalate lines)) := by
  rw [expression, evaluated, ok_bind]
  dsimp only
  rw [shown, copied]
  rfl

/-- A line that is an expression with a value is answered with the lines that are shown for it, and they are kept. -/
theorem Ready.follows_result (ready : s.Ready) (regular : lib.Regular) {line : String}
    (expression : IsExpression (trim line.toList))
    (evaluated : s.evaluate lib (String.ofList (trim line.toList)) = .ok (.value w)) :
    Follows s (some (.result ⟨String.ofList (trim line.toList), s.settings, w⟩)) (s.handle lib world line).1 := by
  have finite := ready.isFinite_of_evaluate regular evaluated
  obtain ⟨lines, shown, _⟩ := resultLines_returns ready.settings finite w.exact
  obtain ⟨text, copied, _⟩ := displayText_returns ready.settings finite
  have handled : s.dispatch lib world (trim line.toList) = _ :=
    (dispatch_expression expression).trans (expression_eq evaluated shown copied)
  rw [handle_of_dispatch expression.1 handled]
  exact .result shown (copies_displayText shown copied)

/-- An expression without a value leaves the session as it is. -/
theorem Turn.eq_of_valueless (turn : Turn lib world s cs s' reply) (expression : IsExpression cs)
    (valueless : s.value? lib (String.ofList cs) = none) : s' = s := by
  obtain ⟨_, colon, undefined⟩ := expression
  cases turn with
  | blank | failed | broken => rfl
  | command written =>
      subst written
      exact absurd rfl colon
  | result _ evaluated =>
      rw [value?_eq_some.mpr evaluated] at valueless
      cases valueless
  | definition _ defines | unshown defines =>
      rw [undefined] at defines
      cases defines

/-- An expression is followed as the log says. -/
theorem Ready.follows_expression (ready : s.Ready) (regular : lib.Regular) {line : String}
    (expression : IsExpression (trim line.toList)) :
    Follows s (s.event? lib (trim line.toList)) (s.handle lib world line).1 := by
  rw [event?_expression expression]
  cases value : s.value? lib (String.ofList (trim line.toList)) with
  | none =>
      rw [(turn_handle lib s world line).eq_of_valueless expression value]
      exact .same
  | some w => exact ready.follows_result regular expression (value?_eq_some.mp value)

/-! ### Definitions -/

/-- The name of the last answer can be defined. -/
theorem define_answer (store : Store) (value : Number) :
    store.define answerName value = .ok (store.setAnswer value) :=
  Store.define_eq_ok_iff.mpr ⟨⟨by decide, by decide, by decide⟩, rfl⟩

theorem follows_replaced (defines : definition? (trim line.toList) = some (answerName, text))
    (evaluated : s.evaluate lib text = .ok (.value w)) :
    Follows s (some (.replaced w.value)) (s.handle lib world line).1 := by
  have written : trim line.toList ≠ [] := by
    intro blank
    rw [blank] at defines
    cases defines
  have handled : ∃ reply, s.dispatch lib world (trim line.toList) =
      .ok ({ s with store := s.store.setAnswer (.real w.value) }, reply) := by
    rw [dispatch_definition defines, definition, evaluated, ok_bind]
    dsimp only
    rw [define_answer]
    cases fixedText s.settings (.real w.value) with
    | ok shown => exact ⟨_, rfl⟩
    | error fault => exact ⟨_, rfl⟩
  obtain ⟨reply, handled⟩ := handled
  rw [handle_of_dispatch written handled]
  exact .replaced w.value

/-- A definition that gives the last answer no value leaves it as it is. -/
theorem Turn.follows_definition (turn : Turn lib world s cs s' reply)
    (defines : definition? cs = some (name, text)) (other : name = answerName → s.value? lib text = none) :
    Follows s none s' := by
  have keeps {w : Worth} (evaluated : s.evaluate lib text = .ok (.value w)) :
      Follows s none { s with store := ⟨s.store.bindings.put name (.real w.value)⟩ } := by
    have different : name ≠ answerName := by
      intro same
      have valueless := other same
      rw [value?_eq_some.mpr evaluated] at valueless
      cases valueless
    exact .quiet rfl rfl (Entries.get?_put_of_ne _ _ different.symm)
  cases turn with
  | blank | failed | broken => exact .same
  | command written =>
      subst written
      cases defines
  | result expression =>
      rw [expression.2.2] at defines
      cases defines
  | definition _ found _ evaluated | unshown found evaluated =>
      obtain ⟨rfl, rfl⟩ := Prod.mk.inj (Option.some.inj (defines.symm.trans found))
      exact keeps evaluated

/-- A definition is followed as the log says. -/
theorem follows_definition (defines : definition? (trim line.toList) = some (name, text)) :
    Follows s (s.event? lib (trim line.toList)) (s.handle lib world line).1 := by
  have turn := turn_handle lib s world line
  rw [event?_definition defines]
  split
  · rename_i same
    subst same
    cases value : s.value? lib text with
    | none => exact turn.follows_definition defines fun _ => value
    | some w => exact follows_replaced defines (value?_eq_some.mp value)
  · rename_i different
    exact turn.follows_definition defines fun same => absurd same different

/-! ### Commands -/

theorem command_clear (clears : String.ofList (splitAtSpace rest).1 = "clear") :
    s.command world rest = .ok ({ s with store := .initial }, .done "Variables cleared") := by
  unfold command
  dsimp only
  rw [clears]
  rfl

theorem command_delete (deletes : String.ofList (splitAtSpace rest).1 = "del") :
    s.command world rest = s.remove (String.ofList (trim (splitAtSpace rest).2)) := by
  unfold command
  dsimp only
  rw [deletes]
  rfl

theorem remove_answer (s : Session) : s.remove answerName =
    .ok ({ s with store := ⟨s.store.bindings.erase answerName⟩ }, .done ("Deleted " ++ answerName)) := by
  rw [remove, Store.delete, if_neg (by decide +kernel)]

theorem store_of_change {disk : Disk} {argument : List Char} (h : s.change disk argument = .ok (s', reply)) :
    s'.store = s.store := by
  obtain ⟨value, _, h⟩ := exists_of_bind_eq_ok h
  dsimp only at h
  split at h
  · rw [← (Prod.mk.inj (Except.ok.inj h)).1]
  · rw [← (Prod.mk.inj (Except.ok.inj h)).1]

/-- A command keeps the last answer unless it removes it. -/
theorem answer_of_command (carried : s.command world rest = .ok (s', reply)) (keeps : ¬removesAnswer rest = true) :
    s'.store.get? answerName = s.store.get? answerName := by
  obtain ⟨uncleared, undeleted⟩ := not_or.mp (removesAnswer_iff.not.mp keeps)
  have done := carried
  unfold command at done
  dsimp only at done
  split_ifs at done with _ _ _ deletes _ _ copies
  · obtain ⟨rfl, _⟩ := Except.ok.inj done
    rfl
  · obtain ⟨rfl, _⟩ := Except.ok.inj done
    rfl
  · obtain ⟨rfl, _⟩ := Except.ok.inj done
    rfl
  · obtain ⟨rfl, _⟩ := eq_of_remove done
    exact Entries.get?_erase_of_ne (fun same => undeleted ⟨deletes, same.symm⟩) _
  · obtain ⟨rfl, _⟩ := Except.ok.inj done
    rfl
  · obtain ⟨rfl, _⟩ := Except.ok.inj done
    rfl
  · rw [eq_of_copy carried copies]
  · rw [store_of_change done]
  · cases done

/-- A line with a command that keeps the last answer leaves the whole trace as it is. -/
theorem Turn.follows_command (turn : Turn lib world s (':' :: rest) s' reply)
    (keeps : ¬removesAnswer rest = true) : Follows s none s' := by
  apply turn.command_keeps .same
  intro s' reply done
  have kept := (effect_command done).kept
  exact .quiet kept.history kept.lastDisplay (answer_of_command done keeps)

theorem handle_of_command (colon : trim line.toList = ':' :: rest)
    (carried : s.command world rest = .ok (s', reply)) : (s.handle lib world line).1 = s' := by
  have written : trim line.toList ≠ [] := colon ▸ List.cons_ne_nil _ _
  have handled : s.dispatch lib world (trim line.toList) = .ok (s', reply) := by
    rw [colon, dispatch, carried]
  rw [handle_of_dispatch written handled]

theorem follows_removed (colon : trim line.toList = ':' :: rest) (removes : removesAnswer rest = true) :
    Follows s (some .removed) (s.handle lib world line).1 := by
  obtain clears | ⟨deletes, named⟩ := removesAnswer_iff.mp removes
  · rw [handle_of_command colon (command_clear clears)]
    exact .removed fun _ => rfl
  · have removed : s.command world rest = _ := command_delete deletes
    rw [named, remove_answer] at removed
    rw [handle_of_command colon removed]
    exact .removed fun distinct => Entries.get?_erase_self distinct _

/-- A command is followed as the log says. -/
theorem follows_command (colon : trim line.toList = ':' :: rest) :
    Follows s (s.event? lib (trim line.toList)) (s.handle lib world line).1 := by
  rw [colon, event?]
  split
  · rename_i removes
    exact follows_removed colon removes
  · rename_i keeps
    have turn := turn_handle lib s world line
    rw [colon] at turn
    exact turn.follows_command keeps

/-! ### All lines -/

/-- Every line is followed as the log says. -/
theorem Ready.follows_handle (ready : s.Ready) (regular : lib.Regular) (world : World) (line : String) :
    Follows s (s.event? lib (trim line.toList)) (s.handle lib world line).1 := by
  by_cases blank : trim line.toList = []
  · have turn := turn_handle lib s world line
    rw [blank] at turn ⊢
    rw [turn.eq_of_blank]
    exact .same
  · by_cases colon : (trim line.toList).head? = some ':'
    · obtain ⟨rest, colon⟩ := List.head?_eq_some_iff.mp colon
      exact follows_command colon
    · cases defines : definition? (trim line.toList) with
      | none => exact ready.follows_expression regular ⟨blank, colon, defines⟩
      | some definition => exact follows_definition defines

/-! ## Runs -/

/-- What the log determines of a session. -/
structure Traced (n : Nat) (events : List Event) (s : Session) : Prop where
  capacity : s.capacity = some n
  distinct : (Entries.names s.store.bindings).Nodup
  history : ∃ all, (successes events).mapM Success.entry = .ok all ∧ s.history = all.rtake n
  undisplayed : s.lastDisplay = none ↔ successes events = []
  displayed : ∀ r ∈ (successes events).getLast?, ∃ lines text,
    r.lines = .ok lines ∧ s.lastDisplay = some text ∧ Copies r.worth.exact lines text
  answer : s.store.get? answerName = answer? events

theorem successes_concat (events : List Event) (event : Event) :
    successes (events ++ [event]) = successes events ++ event.success?.toList := by
  rw [successes, List.filterMap_append]
  cases event <;> rfl

theorem answer?_concat (events : List Event) (event : Event) : answer? (events ++ [event]) = event.answer? := by
  rw [answer?, List.getLast?_concat]
  rfl

/-- What drops out before more is added would drop out afterwards as well. -/
theorem rtake_rtake_append {α : Type} (all more : List α) (n : Nat) :
    (all.rtake n ++ more).rtake n = (all ++ more).rtake n := by
  simp only [List.rtake, List.drop_append, List.drop_drop, List.length_append, List.length_drop]
  congr 2 <;> omega

theorem remember_eq (bounded : s.capacity = some n) (line : String) (lines : List String) :
    s.remember line lines = (s.history ++ [(line, lines)]).rtake n := by
  rw [remember, bounded]
  rfl

/-- An event that is no success changes no more than the last answer. -/
theorem Traced.concat {events : List Event} {event : Event} (traced : Traced n events s)
    (unsuccessful : event.success? = none) (store : Store) (distinct : (Entries.names store.bindings).Nodup)
    (answer : store.get? answerName = event.answer?) : Traced n (events ++ [event]) { s with store } := by
  have same : successes (events ++ [event]) = successes events := by
    rw [successes_concat, unsuccessful, Option.toList_none, List.append_nil]
  refine ⟨traced.capacity, distinct, ?_, ?_, ?_, answer.trans (answer?_concat events event).symm⟩
  · rw [same]
    exact traced.history
  · rw [same]
    exact traced.undisplayed
  · rw [same]
    exact traced.displayed

/-- A line moves a trace on by what the log keeps of it. -/
theorem Traced.follow {events : List Event} {event : Option Event} (traced : Traced n events s)
    (follows : Follows s event s') (capacity : s'.capacity = s.capacity)
    (distinct : (Entries.names s'.store.bindings).Nodup) : Traced n (events ++ event.toList) s' := by
  have bounded := capacity.trans traced.capacity
  cases follows with
  | quiet history display answer =>
      rw [Option.toList_none, List.append_nil]
      refine ⟨bounded, distinct, ?_, ?_, ?_, answer.trans traced.answer⟩
      · exact history ▸ traced.history
      · exact display ▸ traced.undisplayed
      · exact display ▸ traced.displayed
  | @result r lines text shown copied =>
      obtain ⟨all, entries, history⟩ := traced.history
      have one : successes (events ++ [.result r]) = successes events ++ [r] := successes_concat events _
      rw [Option.toList_some]
      refine ⟨bounded, distinct, ⟨all ++ [(r.line, lines)], ?_, ?_⟩, ?_, ?_, ?_⟩
      · rw [one, List.mapM_append, entries, ok_bind, List.mapM_cons, List.mapM_nil, Success.entry, shown]
        rfl
      · dsimp only
        rw [remember_eq traced.capacity, history, rtake_rtake_append]
      · rw [one]
        exact iff_of_false nofun (List.append_ne_nil_of_right_ne_nil _ (List.cons_ne_nil _ _))
      · rw [one, List.getLast?_concat]
        rintro _ ⟨⟩
        exact ⟨lines, text, shown, rfl, copied⟩
      · rw [answer?_concat]
        exact Entries.get?_put_self _ _ _
  | replaced value => exact traced.concat rfl _ distinct (Entries.get?_put_self _ _ _)
  | removed gone => exact traced.concat rfl _ distinct (gone traced.distinct)

theorem nodup_names_constants : (Entries.names constants).Nodup := by decide +kernel

theorem Effect.nodup_names (effect : Effect world s s' reply) (distinct : (Entries.names s.store.bindings).Nodup) :
    (Entries.names s'.store.bindings).Nodup := by
  obtain store | store | ⟨name, store⟩ := effect.store
  · exact store ▸ distinct
  · rw [store]
    exact nodup_names_constants
  · rw [store]
    exact Entries.nodup_names_erase distinct name

theorem Turn.nodup_names (turn : Turn lib world s cs s' reply)
    (distinct : (Entries.names s.store.bindings).Nodup) : (Entries.names s'.store.bindings).Nodup := by
  cases turn with
  | blank | failed | broken => exact distinct
  | command _ done => exact (effect_command done).nodup_names distinct
  | result | definition | unshown => exact Entries.nodup_names_put distinct _ _

/-- Lines move a trace on by their log. -/
theorem Traced.after (regular : lib.Regular) {events : List Event} (ready : s.Ready) (traced : Traced n events s)
    (lines : List (World × String)) : Traced n (events ++ s.log lib lines) (s.after lib lines) := by
  induction lines generalizing s events with
  | nil =>
      rw [log, List.append_nil]
      exact traced
  | cons l lines ih =>
      obtain ⟨world, line⟩ := l
      have turn := turn_handle lib s world line
      have next :=
        traced.follow (ready.follows_handle regular world line) turn.capacity (turn.nodup_names traced.distinct)
      rw [after_cons, log, ← List.append_assoc]
      exact ih (ready.turn regular turn) next

/-- A session has no trace when it starts. -/
theorem traced_of_start {nesting : Nat} {file : SettingsFile} {given : Option Settings}
    (started : Started nesting file given s) (bounded : s.capacity = some n) : Traced n [] s where
  capacity := bounded
  distinct := by
    rw [started.store]
    exact nodup_names_constants
  history := ⟨[], rfl, started.history.trans (List.rtake_nil n).symm⟩
  undisplayed := iff_of_true started.lastDisplay rfl
  displayed := by
    rintro _ ⟨⟩
  answer := by
    rw [started.store]
    rfl

/-- The log of a run determines the history, what can be copied and the last answer. The history is the last results
of the log, as many as the settings had room for at the start, with the lines that were shown for each. There is
something to copy exactly where there was a result, and it is taken from the lines of the last one. The last answer is
that of the last event: the value of a result or of a definition of its name, or none after it was removed. -/
theorem trace_after (regular : lib.Regular) {nesting : Nat} {file : SettingsFile} {given : Option Settings}
    (starts : Session.start nesting file given = .ok s) (valid : s.settings.Valid) (lines : List (World × String)) :
    ∃ n, s.settings.historyCapacity = .ok (some n) ∧
      (∃ all, (successes (s.log lib lines)).mapM Success.entry = .ok all ∧
        (s.after lib lines).history = all.rtake n) ∧
      ((s.after lib lines).lastDisplay = none ↔ successes (s.log lib lines) = []) ∧
      (∀ r ∈ (successes (s.log lib lines)).getLast?, ∃ shown text, r.lines = .ok shown ∧
        (s.after lib lines).lastDisplay = some text ∧ Copies r.worth.exact shown text) ∧
      (s.after lib lines).store.get? answerName = answer? (s.log lib lines) := by
  obtain ⟨_, settled, n, _, rfl⟩ := valid.historyCapacity_returns
  have started := started_of_start starts
  have bounded : s.capacity = some n := Except.ok.inj (started.settled.symm.trans settled)
  have ready : s.Ready := ⟨valid, by rw [started.store]; exact finiteDoubles_constants⟩
  have traced := (traced_of_start started bounded).after regular ready lines
  rw [List.nil_append] at traced
  exact ⟨n, settled, traced.history, traced.undisplayed, traced.displayed, traced.answer⟩

/-- A last answer that was defined between two results and removed after them. -/
theorem trace_after_removed : ∃ s, s = fresh.after .atUnit (calmly ["1 / 2", "let ans = 3", "ans + 1", ":del ans"]) ∧
    s.history = [("1 / 2", ["= 0.5"]), ("ans + 1", ["= 4"])] ∧ s.lastDisplay ≠ none ∧
    s.store.get? answerName = none := by
  obtain ⟨n, room, ⟨all, entries, history⟩, undisplayed, _, answer⟩ := trace_after Elementary.regular_atUnit start_fresh
    Settings.valid_defaults (calmly ["1 / 2", "let ans = 3", "ans + 1", ":del ans"])
  have fifty : fresh.settings.historyCapacity = .ok (some 50) := by decide +kernel
  obtain rfl := Option.some.inj (Except.ok.inj (room.symm.trans fifty))
  generalize run : fresh.log .atUnit (calmly ["1 / 2", "let ans = 3", "ans + 1", ":del ans"]) = events at *
  have shown : (successes events).mapM Success.entry = .ok [("1 / 2", ["= 0.5"]), ("ans + 1", ["= 4"])] := by
    rw [← run]
    decide +kernel
  have removed : answer? events = none := by
    rw [← run]
    decide +kernel
  obtain rfl := Except.ok.inj (entries.symm.trans shown)
  refine ⟨_, rfl, history, ?_, answer.trans removed⟩
  intro none
  rw [undisplayed.mp none] at shown
  cases shown

end Session

end Surd
