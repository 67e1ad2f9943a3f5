import Surd.Proofs.Session.Sound

/-!
# What a line leaves as it is

A line that fails changes nothing, and neither does a line that only looks at the session. Two kinds of lines fail after
a change all the same. Where the disk stops taking the settings, the file has been emptied; and a definition binds its
name before the value is written, which is why a value that cannot be written is bound nevertheless. A definition that
succeeds changes the name that it defines and nothing else.
-/

namespace Surd

namespace Session

variable {lib : Elementary} {world : World} {s s' : Session} {reply : Reply} {cs rest : List Char}
  {name text shown : String}

/-- The commands that look at a session. -/
def lookingCommands : List String := ["help", "vars", "history", "expand"]

theorem eq_of_looking (carried : s.command world rest = .ok (s', reply))
    (looking : String.ofList (splitAtSpace rest).1 ∈ lookingCommands) : s' = s := by
  unfold command at carried
  dsimp only at carried
  generalize String.ofList (splitAtSpace rest).1 = word at looking carried
  simp only [lookingCommands, List.mem_cons, List.not_mem_nil, or_false] at looking
  obtain rfl | rfl | rfl | rfl := looking <;> exact (Prod.mk.inj (Except.ok.inj carried)).1.symm

theorem eq_of_copy (carried : s.command world rest = .ok (s', reply))
    (copying : String.ofList (splitAtSpace rest).1 = "copy") : s' = { s with copied := s'.copied } := by
  unfold command at carried
  dsimp only at carried
  rw [copying] at carried
  change s.copy world.clipboard = .ok (s', reply) at carried
  unfold copy at carried
  split at carried
  · cases carried
  · cases carried
  · rw [← (Prod.mk.inj (Except.ok.inj carried)).1]

namespace Turn

theorem eq_or_cut_of_failed {code message : String} (turn : Turn lib world s cs s' (.failed code message)) :
    s' = s ∨ Cut world s s' (.failed code message) := by
  cases turn with
  | failed => exact .inl rfl
  | command _ carried => exact (effect_command carried).eq_or_cut nofun

/-- A fault after a change is one in writing the value of a definition. -/
theorem eq_of_broken {fault : Fault} (turn : Turn lib world s cs s' (.broken fault)) :
    s' = s ∨ ∃ name text w, definition? cs = some (name, text) ∧ s.evaluate lib text = .ok (.value w) ∧
      fixedText s.settings (.real w.value) = .error fault ∧
      s' = { s with store := ⟨s.store.bindings.put name (.real w.value)⟩ } := by
  cases turn with
  | broken => exact .inl rfl
  | command _ carried =>
      obtain same | ⟨_, _, _, _, _, _, ⟨⟩⟩ := (effect_command carried).eq_or_cut nofun
      exact .inl same
  | unshown defines evaluated unwritten => exact .inr ⟨_, _, _, defines, evaluated, unwritten, rfl⟩

theorem eq_of_blank (turn : Turn lib world s [] s' reply) : s' = s := by
  cases turn with
  | blank | failed | broken => rfl
  | command written => cases written
  | result expression => exact absurd rfl expression.1
  | definition _ defines => cases defines
  | unshown defines => cases defines

/-- What a command keeps is kept by its line, whether it is carried out or not. -/
theorem command_keeps {P : Session → Prop} (turn : Turn lib world s (':' :: rest) s' reply) (start : P s)
    (done : ∀ s' reply, s.command world rest = .ok (s', reply) → P s') : P s' := by
  cases turn with
  | blank | failed | broken => exact start
  | command written carried =>
      obtain ⟨_, rfl⟩ := written
      exact done _ _ carried
  | result expression => exact absurd rfl expression.2.1
  | definition _ defines => cases defines
  | unshown defines => cases defines

/-- A definition that succeeds puts the value into the store, in the place of its name or at the end. -/
theorem store_of_definition (turn : Turn lib world s cs s' (.done shown))
    (defines : definition? cs = some (name, text)) :
    Store.isConstant name = false ∧ ∃ w, s.evaluate lib text = .ok (.value w) ∧
      s' = { s with store := ⟨s.store.bindings.put name (.real w.value)⟩ } := by
  cases turn with
  | blank empty =>
      subst empty
      cases defines
  | command written =>
      subst written
      cases defines
  | result expression =>
      rw [expression.2.2] at defines
      cases defines
  | definition _ found free evaluated =>
      obtain ⟨rfl, rfl⟩ := Prod.mk.inj (Option.some.inj (defines.symm.trans found))
      exact ⟨free, _, evaluated, rfl⟩

end Turn

/-- A session with valid settings that meets a fault is left as it was: what it evaluates can be written. -/
theorem Ready.eq_of_broken (ready : s.Ready) (regular : lib.Regular) {fault : Fault}
    (turn : Turn lib world s cs s' (.broken fault)) : s' = s := by
  obtain same | ⟨_, _, w, _, evaluated, unwritten, _⟩ := turn.eq_of_broken
  · exact same
  · obtain ⟨_, written, _⟩ := fixedText_returns ready.settings (ready.isFinite_of_evaluate regular evaluated)
    cases written.symm.trans unwritten

/-- The session after a line is the session before it where the line fails, is blank or only looks at the session; a
copy changes no more than the texts that were copied. There are two exceptions. Where the disk cuts the saving of a
setting short, the line fails and the file is left with the beginning of what was to be saved. And a definition whose
value cannot be written meets a fault when its name is bound already; with valid settings every finite value can be
written, and no fault leaves a change. A definition that succeeds binds a name that is no constant to the value it
evaluated, and every other name keeps its value and its place. -/
theorem handle_frame (lib : Elementary) (s : Session) (world : World) (line : String) :
    (∀ code message, (s.handle lib world line).2 = .failed code message → (s.handle lib world line).1 = s ∨
      Cut world s (s.handle lib world line).1 (s.handle lib world line).2) ∧
    (∀ fault, (s.handle lib world line).2 = .broken fault → (s.handle lib world line).1 = s ∨
      ∃ name text w, definition? (trim line.toList) = some (name, text) ∧ s.evaluate lib text = .ok (.value w) ∧
        fixedText s.settings (.real w.value) = .error fault ∧
        (s.handle lib world line).1 = { s with store := ⟨s.store.bindings.put name (.real w.value)⟩ }) ∧
    (lib.Regular → s.Ready → ∀ fault, (s.handle lib world line).2 = .broken fault →
      (s.handle lib world line).1 = s) ∧
    (trim line.toList = [] → (s.handle lib world line).1 = s) ∧
    (∀ rest, trim line.toList = ':' :: rest →
      (String.ofList (splitAtSpace rest).1 ∈ lookingCommands → (s.handle lib world line).1 = s) ∧
      (String.ofList (splitAtSpace rest).1 = "copy" →
        (s.handle lib world line).1 = { s with copied := (s.handle lib world line).1.copied })) ∧
    ∀ name text shown, definition? (trim line.toList) = some (name, text) →
      (s.handle lib world line).2 = .done shown →
      Store.isConstant name = false ∧ ∃ w store, s.evaluate lib text = .ok (.value w) ∧
        (s.handle lib world line).1 = { s with store } ∧ store.get? name = some (.real w.value) ∧
        (∀ other, other ≠ name → store.get? other = s.store.get? other) ∧
        (store.names = s.store.names ∨ store.names = s.store.names ++ [name]) := by
  have turn := turn_handle lib s world line
  generalize s.handle lib world line = r at turn ⊢
  obtain ⟨s', reply⟩ := r
  refine ⟨?_, ?_, ?_, ?_, ?_, ?_⟩
  · rintro code message rfl
    exact turn.eq_or_cut_of_failed
  · rintro fault rfl
    exact turn.eq_of_broken
  · rintro regular ready fault rfl
    exact ready.eq_of_broken regular turn
  · intro blank
    rw [blank] at turn
    exact turn.eq_of_blank
  · intro rest colon
    rw [colon] at turn
    constructor
    · intro looking
      exact turn.command_keeps (P := (· = s)) rfl fun _ _ carried => eq_of_looking carried looking
    · intro copying
      exact turn.command_keeps (P := fun t => t = { s with copied := t.copied }) rfl fun _ _ carried =>
        eq_of_copy carried copying
  · rintro name text shown defines rfl
    obtain ⟨free, w, evaluated, rfl⟩ := turn.store_of_definition defines
    refine ⟨free, w, _, evaluated, rfl, Entries.get?_put_self _ _ _, ?_, ?_⟩
    · intro other different
      exact Entries.get?_put_of_ne _ _ different
    · by_cases bound : name ∈ s.store.names
      · exact .inl (Entries.names_put_of_mem bound _)
      · exact .inr (Entries.names_put_of_not_mem bound _)

/-- A world whose disk has no room left. -/
def full : World := ⟨.stopping 0 "No space left on device", .accepting⟩

/-- A new session that is given more decimal places than can be written. -/
def overlong : Session :=
  { fresh with settings := Entries.put (codePoints "decimal_places") (.number 500) fresh.settings }

/-- A new session that follows no array within another. -/
def shallow : Session := { fresh with nesting := 0 }

theorem ready_shallow : shallow.Ready where
  settings := Settings.valid_defaults
  store := finiteDoubles_constants

/-- In a new session a constant cannot be deleted, a blank line and a listing change nothing, nothing can be copied, and
a definition leaves the constants alone. Where the disk is full, a change of a setting fails and empties the file; a
definition with too many places meets a fault and binds its name; and a fault in reading a value leaves the session as
it was. -/
theorem handle_frame_fresh :
    (fresh.handle .machine .calm ":del pi").1 = fresh ∧
    Cut full fresh (fresh.handle .machine full ":set decimal_places 5").1
      (fresh.handle .machine full ":set decimal_places 5").2 ∧
    (fresh.handle .machine full ":set decimal_places 5").1.file.shown = some "" ∧
    (∃ w : Worth, (overlong.handle .machine .calm "let x = 0.5").1 =
      { overlong with store := ⟨overlong.store.bindings.put "x" (.real w.value)⟩ }) ∧
    (shallow.handle .atUnit .calm ":set history_size [[1]]").1 = shallow ∧
    (fresh.handle .machine .calm " ").1 = fresh ∧
    (fresh.handle .machine .calm ":vars").1 = fresh ∧
    (fresh.handle .machine .calm ":copy").1 =
      { fresh with copied := (fresh.handle .machine .calm ":copy").1.copied } ∧
    (∃ (w : Worth) (store : Store), (fresh.handle .machine .calm "let x = 2").1 = { fresh with store } ∧
      store.get? "x" = some (.real w.value) ∧ store.get? "pi" = fresh.store.get? "pi") := by
  obtain ⟨failed, _⟩ := handle_frame .machine fresh .calm ":del pi"
  obtain ⟨unsaved, _⟩ := handle_frame .machine fresh full ":set decimal_places 5"
  obtain ⟨_, unshown, _⟩ := handle_frame .machine overlong .calm "let x = 0.5"
  obtain ⟨_, _, broken, _⟩ := handle_frame .atUnit shallow .calm ":set history_size [[1]]"
  obtain ⟨_, _, _, blank, _⟩ := handle_frame .machine fresh .calm " "
  obtain ⟨_, _, _, _, looks, _⟩ := handle_frame .machine fresh .calm ":vars"
  obtain ⟨_, _, _, _, copies, _⟩ := handle_frame .machine fresh .calm ":copy"
  obtain ⟨_, _, _, _, _, defines⟩ := handle_frame .machine fresh .calm "let x = 2"
  have emptied : (fresh.handle .machine full ":set decimal_places 5").1.file.shown = some "" := by decide +kernel
  refine ⟨?_, ?_, emptied, ?_, ?_, blank (by decide +kernel), ?_, ?_, ?_⟩
  · obtain same | cut := failed "3042" "Cannot delete constant: pi" (by decide +kernel)
    · exact same
    · obtain ⟨_, _, ⟨⟩⟩ := cut.disk_eq
  · obtain same | cut :=
      unsaved "5000" "Settings could not be saved: No space left on device" (by decide +kernel)
    · rw [same] at emptied
      cases emptied
    · exact cut
  · have bound : "x" ∈ (overlong.handle .machine .calm "let x = 0.5").1.store.names := by decide +kernel
    obtain same | ⟨name, text, w, defines, _, _, after⟩ := unshown .decimalTooLong (by decide +kernel)
    · rw [same] at bound
      exact absurd bound (by decide +kernel)
    · have found : definition? (trim "let x = 0.5".toList) = some ("x", "0.5") := by decide +kernel
      obtain ⟨rfl, rfl⟩ := Prod.mk.inj (Option.some.inj (found.symm.trans defines))
      exact ⟨w, after⟩
  · exact broken Elementary.regular_atUnit ready_shallow .nestedTooDeep (by decide +kernel)
  · exact (looks "vars".toList (by decide +kernel)).1 (by decide +kernel)
  · exact (copies "copy".toList (by decide +kernel)).2 (by decide +kernel)
  · obtain ⟨_, w, store, _, after, bound, others, _⟩ := defines "x" "2" "x = 2" (by decide +kernel) (by decide +kernel)
    exact ⟨w, store, after, bound, others "pi" (by decide)⟩

end Session

end Surd
