import Surd.Session.Handling
import Surd.Proofs.Settings.Update
import Surd.Proofs.Settings.Valid
import Surd.Proofs.Store.Calls

/-!
# What a line does

A line as a whole is a `Turn` of a session: it changes nothing, or it carries out a command, gives a result or binds a
name. A command that is carried out has an `Effect`; so has one that the disk cuts short (`Cut`). Every line is a turn
(`turn_handle`), so what every turn keeps is kept by any lines (`after_keeps`).
-/

namespace Surd

/-- A world in which the disk and the clipboard take what they are given. -/
def World.calm : World := ⟨.taking, .accepting⟩

namespace Session

variable {lib : Elementary} {world : World} {s s' : Session} {reply : Reply}

/-- The disk cuts the saving of a changed setting short: the line fails, and nothing but the file is changed. -/
def Cut (world : World) (s s' : Session) (reply : Reply) : Prop :=
  ∃ name value reason file, SettingsFile.CutShort s.nesting world.disk name value reason s.file file ∧
    s' = { s with file } ∧ reply = .failed "5000" ("Settings could not be saved: " ++ reason)

theorem Cut.exists_file (cut : Cut world s s' reply) : ∃ file, s' = { s with file } := by
  obtain ⟨_, _, _, file, _, after, _⟩ := cut
  exact ⟨file, after⟩

theorem Cut.disk_eq (cut : Cut world s s' reply) : ∃ written reason, world.disk = .stopping written reason := by
  obtain ⟨_, _, reason, _, ⟨_, written, _, stops, _⟩, _⟩ := cut
  exact ⟨written, reason, stops⟩

/-- What a command does to a session where nothing stops it at once, and its reply. -/
inductive Effect (world : World) (s : Session) : Session → Reply → Prop
  | none (text : String) : Effect world s s (.done text)
  | stopped : Effect world s { s with running := false } (.done "")
  | copied (text answer : String) : Effect world s { s with copied := s.copied ++ [text] } (.done answer)
  | deleted (name : String) (free : Store.isConstant name = false) (answer : String) :
      Effect world s { s with store := ⟨s.store.bindings.erase name⟩ } (.done answer)
  | cleared (answer : String) : Effect world s { s with store := .initial } (.done answer)
  | changed {name : String} {value : Json} {file : SettingsFile} {settings : Settings}
      (updated : SettingsFile.update s.nesting world.disk name value s.file = .ok settings file) (answer : String) :
      Effect world s { s with file, settings := s.settings.put (codePoints name) value } (.done answer)
  | refused (stop : Stop) : Effect world s s (.ofStop stop)
  | unsaved {s' : Session} {reply : Reply} (cut : Cut world s s' reply) : Effect world s s' reply

/-- The settings and their file change together, by an update of the file, unless the disk cuts that short. -/
theorem Effect.settings (effect : Effect world s s' reply) :
    s'.file = s.file ∧ s'.settings = s.settings ∨
      (∃ name value settings, SettingsFile.update s.nesting world.disk name value s.file = .ok settings s'.file ∧
        s'.settings = s.settings.put (codePoints name) value) ∨ Cut world s s' reply := by
  cases effect with
  | changed updated => exact .inr (.inl ⟨_, _, _, updated, rfl⟩)
  | unsaved cut => exact .inr (.inr cut)
  | none | stopped | copied | deleted | cleared | refused => exact .inl ⟨rfl, rfl⟩

/-- A command that is not carried out changes nothing, unless the disk cuts it short. -/
theorem Effect.eq_or_cut (effect : Effect world s s' reply) (undone : ∀ text, reply ≠ .done text) :
    s' = s ∨ Cut world s s' reply := by
  cases effect with
  | refused => exact .inl rfl
  | unsaved cut => exact .inr cut
  | none | stopped | copied | deleted | cleared | changed => exact absurd rfl (undone _)

/-- What no command changes. -/
structure Kept (s s' : Session) : Prop where
  capacity : s'.capacity = s.capacity
  history : s'.history = s.history
  lastDisplay : s'.lastDisplay = s.lastDisplay
  nesting : s'.nesting = s.nesting

theorem Effect.kept (effect : Effect world s s' reply) : Kept s s' := by
  cases effect with
  | unsaved cut =>
      obtain ⟨_, rfl⟩ := cut.exists_file
      exact ⟨rfl, rfl, rfl, rfl⟩
  | none | stopped | copied | deleted | cleared | changed | refused => exact ⟨rfl, rfl, rfl, rfl⟩

/-- A command leaves the store as it is, takes it back to the constants or removes a name. -/
theorem Effect.store (effect : Effect world s s' reply) :
    s'.store = s.store ∨ s'.store = .initial ∨ ∃ name, s'.store = ⟨s.store.bindings.erase name⟩ := by
  cases effect with
  | cleared => exact .inr (.inl rfl)
  | deleted name => exact .inr (.inr ⟨name, rfl⟩)
  | unsaved cut =>
      obtain ⟨_, rfl⟩ := cut.exists_file
      exact .inl rfl
  | none | stopped | copied | changed | refused => exact .inl rfl

theorem effect_copy {clipboard : Clipboard} (h : s.copy clipboard = .ok (s', reply)) : Effect world s s' reply := by
  unfold copy at h
  split at h
  · cases h
  · cases h
  · obtain ⟨rfl, rfl⟩ := Prod.mk.inj (Except.ok.inj h)
    exact .copied _ _

theorem effect_change {argument : List Char} (h : s.change world.disk argument = .ok (s', reply)) :
    Effect world s s' reply := by
  obtain ⟨value, _, h⟩ := exists_of_bind_eq_ok h
  dsimp only at h
  split at h
  · rename_i updated
    obtain ⟨rfl, rfl⟩ := Prod.mk.inj (Except.ok.inj h)
    exact .changed updated _
  · rename_i stop file stopped
    obtain ⟨rfl, rfl⟩ := Prod.mk.inj (Except.ok.inj h)
    obtain rfl | ⟨reason, rfl, cut⟩ := SettingsFile.update_eq_error stopped
    · exact .refused stop
    · exact .unsaved ⟨_, _, reason, file, cut, rfl, rfl⟩

theorem eq_of_remove {name : String} (h : s.remove name = .ok (s', reply)) :
    s' = { s with store := ⟨s.store.bindings.erase name⟩ } ∧ reply = .done ("Deleted " ++ name) ∧
      Store.isConstant name = false := by
  unfold remove Store.delete at h
  split at h
  · rename_i deleted
    obtain ⟨rfl, rfl⟩ := Prod.mk.inj (Except.ok.inj h)
    split_ifs at deleted with constant
    obtain rfl := Except.ok.inj deleted
    exact ⟨rfl, rfl, eq_false_of_ne_true constant⟩
  · cases h

theorem effect_remove {name : String} (h : s.remove name = .ok (s', reply)) : Effect world s s' reply := by
  obtain ⟨rfl, rfl, free⟩ := eq_of_remove h
  exact .deleted name free _

theorem effect_command {cs : List Char} (h : s.command world cs = .ok (s', reply)) : Effect world s s' reply := by
  unfold command at h
  dsimp only at h
  split_ifs at h
  · obtain ⟨rfl, rfl⟩ := Prod.mk.inj (Except.ok.inj h)
    exact .stopped
  · obtain ⟨rfl, rfl⟩ := Prod.mk.inj (Except.ok.inj h)
    exact .none _
  · obtain ⟨rfl, rfl⟩ := Prod.mk.inj (Except.ok.inj h)
    exact .none _
  · exact effect_remove h
  · obtain ⟨rfl, rfl⟩ := Prod.mk.inj (Except.ok.inj h)
    exact .cleared _
  · obtain ⟨rfl, rfl⟩ := Prod.mk.inj (Except.ok.inj h)
    exact .none _
  · obtain ⟨rfl, rfl⟩ := Prod.mk.inj (Except.ok.inj h)
    exact .none _
  · exact effect_copy h
  · exact effect_change h
  · cases h

/-- Neither a command nor a definition. -/
def IsExpression (cs : List Char) : Prop := cs ≠ [] ∧ cs.head? ≠ some ':' ∧ definition? cs = none

/-- What a line without blanks at its ends does to a session, and the reply to it. -/
inductive Turn (lib : Elementary) (world : World) (s : Session) (cs : List Char) : Session → Reply → Prop
  | blank : cs = [] → Turn lib world s cs s (.done "")
  | failed (code message : String) : Turn lib world s cs s (.failed code message)
  | broken (fault : Fault) : Turn lib world s cs s (.broken fault)
  | command {rest : List Char} {s' : Session} {reply : Reply} (written : cs = ':' :: rest)
      (carried : s.command world rest = .ok (s', reply)) : Turn lib world s cs s' reply
  | result {w : Worth} {lines : List String} {display : String} (expression : IsExpression cs)
      (evaluated : s.evaluate lib (String.ofList cs) = .ok (.value w)) :
      Turn lib world s cs { s with
        store := s.store.setAnswer (.real w.value)
        lastDisplay := some display
        history := s.remember (String.ofList cs) lines } (.done ("\n".intercalate lines))
  | definition {name text : String} {w : Worth} (shown : String) (defines : definition? cs = some (name, text))
      (free : Store.isConstant name = false) (evaluated : s.evaluate lib text = .ok (.value w)) :
      Turn lib world s cs { s with store := ⟨s.store.bindings.put name (.real w.value)⟩ } (.done shown)
  | unshown {name text : String} {w : Worth} {fault : Fault} (defines : definition? cs = some (name, text))
      (evaluated : s.evaluate lib text = .ok (.value w))
      (unwritten : fixedText s.settings (.real w.value) = .error fault) :
      Turn lib world s cs { s with store := ⟨s.store.bindings.put name (.real w.value)⟩ } (.broken fault)

section

variable {cs : List Char}

theorem Turn.settings (turn : Turn lib world s cs s' reply) :
    s'.file = s.file ∧ s'.settings = s.settings ∨
      (∃ name value settings, SettingsFile.update s.nesting world.disk name value s.file = .ok settings s'.file ∧
        s'.settings = s.settings.put (codePoints name) value) ∨ Cut world s s' reply := by
  cases turn with
  | command _ carried => exact (effect_command carried).settings
  | blank | failed | broken | result | definition | unshown => exact .inl ⟨rfl, rfl⟩

/-- Lines do not change how deep JSON can be followed. -/
theorem Turn.nesting (turn : Turn lib world s cs s' reply) : s'.nesting = s.nesting := by
  cases turn with
  | command _ carried => exact (effect_command carried).kept.nesting
  | blank | failed | broken | result | definition | unshown => rfl

theorem turn_expression (expression : IsExpression cs) (h : s.expression lib (String.ofList cs) = .ok (s', reply)) :
    Turn lib world s cs s' reply := by
  obtain ⟨r, evaluated, h⟩ := exists_of_bind_eq_ok h
  cases r with
  | failure code message =>
      obtain ⟨rfl, rfl⟩ := Except.ok.inj h
      exact .failed code message
  | value w =>
      obtain ⟨lines, _, h⟩ := exists_of_bind_eq_ok h
      obtain ⟨display, _, h⟩ := exists_of_bind_eq_ok h
      obtain ⟨rfl, rfl⟩ := Except.ok.inj h
      exact .result expression evaluated

theorem turn_definition {name text : String} (defines : definition? cs = some (name, text))
    (h : s.definition lib name text = .ok (s', reply)) : Turn lib world s cs s' reply := by
  obtain ⟨r, evaluated, h⟩ := exists_of_bind_eq_ok h
  cases r with
  | failure code message =>
      obtain ⟨rfl, rfl⟩ := Except.ok.inj h
      exact .failed code message
  | value w =>
      obtain ⟨store, bound, h⟩ := exists_of_bind_eq_ok h
      obtain ⟨bindable, rfl⟩ := Store.define_eq_ok_iff.mp (mapError_eq_ok bound)
      split at h
      · obtain ⟨rfl, rfl⟩ := Except.ok.inj h
        exact .definition _ defines bindable.free evaluated
      · rename_i unwritten
        obtain ⟨rfl, rfl⟩ := Except.ok.inj h
        exact .unshown defines evaluated unwritten

theorem turn_dispatch (written : cs ≠ []) (h : s.dispatch lib world cs = .ok (s', reply)) :
    Turn lib world s cs s' reply := by
  unfold dispatch at h
  split at h
  · exact .command rfl h
  · rename_i other
    split at h
    · rename_i defines
      exact turn_definition defines h
    · rename_i undefined
      refine turn_expression ⟨written, ?_, undefined⟩ h
      intro colon
      obtain ⟨rest, rfl⟩ := List.head?_eq_some_iff.mp colon
      exact other rest rfl

/-- Every line is one of the turns. -/
theorem turn_handle (lib : Elementary) (s : Session) (world : World) (line : String) :
    Turn lib world s (trim line.toList) (s.handle lib world line).1 (s.handle lib world line).2 := by
  rw [handle]
  cases cs : trim line.toList with
  | nil => exact .blank rfl
  | cons c rest =>
      dsimp only [List.isEmpty]
      cases outcome : s.dispatch lib world (c :: rest) with
      | ok r => exact turn_dispatch (List.cons_ne_nil c rest) outcome
      | error stop =>
          cases stop with
          | problem p => exact .failed p.code p.message
          | fault f => exact .broken f

end

/-! ## Runs -/

/-- Valid settings start a session. -/
theorem start_of_resolve {nesting : Nat} {file : SettingsFile} {given : Option Settings} {settings : Settings}
    (resolved : file.resolve nesting given = .ok settings) (valid : settings.Valid) :
    ∃ s, Session.start nesting file given = .ok s := by
  obtain ⟨capacity, settled, _⟩ := valid.historyCapacity_returns
  rw [Session.start, resolved, ok_bind, settled, ok_bind]
  exact ⟨_, rfl⟩

/-- A session that starts has the settings that are resolved for it, the constants, and nothing in its history. -/
structure Started (nesting : Nat) (file : SettingsFile) (given : Option Settings) (s : Session) : Prop where
  resolved : file.resolve nesting given = .ok s.settings
  settled : s.settings.historyCapacity = .ok s.capacity
  store : s.store = .initial
  history : s.history = []
  lastDisplay : s.lastDisplay = none
  nesting : s.nesting = nesting
  file : s.file = file

theorem started_of_start {nesting : Nat} {file : SettingsFile} {given : Option Settings}
    (started : Session.start nesting file given = .ok s) : Started nesting file given s := by
  obtain ⟨settings, resolved, started⟩ := exists_of_bind_eq_ok started
  obtain ⟨capacity, settled, started⟩ := exists_of_bind_eq_ok started
  obtain rfl := Except.ok.inj started
  exact ⟨resolved, settled, rfl, rfl, rfl, rfl, rfl⟩

/-- The session after some lines, each with the world around it. -/
def after (lib : Elementary) (s : Session) (lines : List (World × String)) : Session :=
  lines.foldl (fun s l => (s.handle lib l.1 l.2).1) s

theorem after_cons (lib : Elementary) (s : Session) (world : World) (line : String) (lines : List (World × String)) :
    s.after lib ((world, line) :: lines) = (s.handle lib world line).1.after lib lines := rfl

/-- What every turn keeps is kept by all lines. -/
theorem after_keeps (lib : Elementary) {P : Session → Prop}
    (turn : ∀ {world s s' cs reply}, Turn lib world s cs s' reply → P s → P s') (start : P s)
    (lines : List (World × String)) : P (s.after lib lines) :=
  List.foldlRecOn lines _ start fun t ht l _ => turn (turn_handle lib t l.1 l.2) ht

theorem nesting_after (lib : Elementary) (s : Session) (lines : List (World × String)) :
    (s.after lib lines).nesting = s.nesting :=
  after_keeps lib (P := fun t => t.nesting = s.nesting) (fun turn kept => turn.nesting.trans kept) rfl lines

/-- Lines in a calm world. -/
def calmly (lines : List String) : List (World × String) := lines.map fun line => (World.calm, line)

/-- A new session with the default settings and no file. -/
def fresh : Session where
  store := .initial
  settings := Settings.defaults
  history := []
  capacity := some 50
  lastDisplay := none
  running := true
  nesting := 987
  file := .absent
  copied := []

theorem start_fresh : Session.start 987 .absent none = .ok fresh := rfl

end Session

end Surd
