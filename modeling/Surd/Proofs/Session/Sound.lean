import Surd.Proofs.Session.Turn
import Surd.Proofs.Evaluation.FiniteValue
import Surd.Proofs.Radical.Recognition
import Surd.Proofs.Decimal.Places

/-!
# Sound sessions

A session is `Sound` if its settings are valid, its file can be read and its names are bound to finite doubles. Every
turn keeps a session sound, and a sound session has a text for every line in reply: what is evaluated is finite, and
what is finite can be written (`text?_handle_after`), whatever the disk and the clipboard do. For expressions and
definitions it does not matter whether the file can be read; the session is `Ready` then.
-/

namespace Surd

/-! ## Finite stores -/

section

variable {values : Entries String Number}

theorem FiniteDoubles.put (h : FiniteDoubles values) (name : String) {x : Double} (hx : x.isFinite = true) :
    FiniteDoubles (values.put name (.real x)) := by
  intro b hb
  obtain rfl | hb := Entries.mem_of_mem_put hb
  · exact ⟨x, rfl, hx⟩
  · exact h b hb

theorem FiniteDoubles.erase (h : FiniteDoubles values) (name : String) : FiniteDoubles (values.erase name) :=
  fun b hb => h b (Entries.mem_of_mem_erase hb)

theorem finiteDoubles_constants : FiniteDoubles constants := by
  simp only [FiniteDoubles, constants, List.forall_mem_cons]
  exact ⟨⟨_, rfl, by decide +kernel⟩, ⟨_, rfl, by decide +kernel⟩, ⟨_, rfl, by decide +kernel⟩, List.forall_mem_nil _⟩

end

namespace Session

variable {lib : Elementary} {world : World} {s s' : Session} {reply : Reply} {settings : Settings} {x : Double}

/-- What a session needs to show what it evaluates. -/
structure Ready (s : Session) : Prop where
  settings : s.settings.Valid
  store : FiniteDoubles s.store.bindings

structure Sound (s : Session) : Prop where
  settings : s.settings.Valid
  file : s.file.Legible s.nesting
  store : FiniteDoubles s.store.bindings

theorem Sound.ready (h : s.Sound) : s.Ready := ⟨h.settings, h.store⟩

/-! ## Evaluation -/

/-- An evaluation that goes on from a result that is not there is refused, and any other is that of some text. -/
theorem evaluate_answers (lib : Elementary) (s : Session) (text : String) : Answers (s.evaluate lib text) fun r =>
    ∃ cs, r = Evaluation.ofText lib s.store.bindings s.settings.options cs := by
  rw [evaluate]
  dsimp only
  split
  · apply (Answers.mapError fun _ _ => trivial).bind
    intro text' _
    exact .ok ⟨_, rfl⟩
  · exact .ok ⟨_, rfl⟩

theorem Ready.evaluate_answers (h : s.Ready) (regular : lib.Regular) (text : String) :
    Answers (s.evaluate lib text) fun r => ∀ w, r = .value w → w.value.isFinite = true := by
  obtain ⟨limit, exactLimit, _⟩ := h.settings.exactLimit_returns
  apply (Session.evaluate_answers lib s text).mono
  rintro _ ⟨cs, rfl⟩ w value
  exact Evaluation.isFinite_of_ofText regular h.store s.settings.options exactLimit value

theorem Ready.isFinite_of_evaluate (h : s.Ready) (regular : lib.Regular) {text : String} {w : Worth}
    (evaluated : s.evaluate lib text = .ok (.value w)) : w.value.isFinite = true :=
  (h.evaluate_answers regular text).of_ok evaluated w rfl

theorem Sound.isFinite_of_evaluate (h : s.Sound) (regular : lib.Regular) {text : String} {w : Worth}
    (evaluated : s.evaluate lib text = .ok (.value w)) : w.value.isFinite = true :=
  h.ready.isFinite_of_evaluate regular evaluated

/-! ## Turns -/

theorem Ready.effect_store (h : s.Ready) (effect : Effect world s s' reply) : FiniteDoubles s'.store.bindings := by
  obtain store | store | ⟨name, store⟩ := effect.store
  · exact store ▸ h.store
  · rw [store]
    exact finiteDoubles_constants
  · rw [store]
    exact h.store.erase name

theorem Ready.turn_store (h : s.Ready) (regular : lib.Regular) {cs : List Char}
    (turn : Turn lib world s cs s' reply) : FiniteDoubles s'.store.bindings := by
  cases turn with
  | command _ carried => exact h.effect_store (effect_command carried)
  | result _ evaluated => exact h.store.put _ (h.isFinite_of_evaluate regular evaluated)
  | definition _ _ _ evaluated => exact h.store.put _ (h.isFinite_of_evaluate regular evaluated)
  | unshown _ evaluated => exact h.store.put _ (h.isFinite_of_evaluate regular evaluated)
  | blank | failed | broken => exact h.store

theorem Ready.turn (regular : lib.Regular) {cs : List Char} (turn : Turn lib world s cs s' reply)
    (h : s.Ready) : s'.Ready := by
  have store := h.turn_store regular turn
  obtain ⟨_, settings⟩ | ⟨name, value, settings, updated, changed⟩ | cut := turn.settings
  · exact ⟨settings ▸ h.settings, store⟩
  · obtain ⟨suited, _⟩ := SettingsFile.update_eq_ok updated
    exact ⟨changed ▸ h.settings.put suited, store⟩
  · obtain ⟨_, rfl⟩ := cut.exists_file
    exact ⟨h.settings, store⟩

/-- What a change leaves in the file can be read, also where the disk cuts it short. -/
theorem Sound.turn (regular : lib.Regular) {cs : List Char} (turn : Turn lib world s cs s' reply)
    (h : s.Sound) : s'.Sound := by
  obtain ⟨settings, store⟩ := h.ready.turn regular turn
  refine ⟨settings, ?_, store⟩
  rw [turn.nesting]
  obtain ⟨file, _⟩ | ⟨name, value, settings', updated, _⟩ | ⟨_, _, _, _, cut, rfl, _⟩ := turn.settings
  · exact file ▸ h.file
  · exact SettingsFile.legible_of_load (SettingsFile.load_of_update updated)
  · exact cut.legible

/-! ## Replies -/

theorem fixedText_returns (h : settings.Valid) (hx : x.isFinite = true) :
    Returns (fixedText settings (.real x)) fun _ => True := by
  rw [fixedText]
  split
  · exact Number.toFixed_returns hx (Nat.zero_le 300)
  · apply h.decimalPlaces_returns.bind
    intro places few
    exact Number.toFixed_returns hx (few.trans (by decide))

theorem approximationLines_returns (h : settings.Valid) (hx : x.isFinite = true) :
    Returns (approximationLines settings (.real x)) fun _ => True := by
  rw [approximationLines]
  apply (Returns.ok (P := (· = x)) rfl).bind
  rintro _ rfl
  apply (squareInReach?_returns hx).bind
  intro reach _
  split
  · exact .ok trivial
  · apply h.radicalPrecision_returns.bind
    intro precision _
    apply (Radical.recognise_returns hx precision).bind
    intro r _
    split
    · exact .ok trivial
    · exact .ok trivial

theorem resultLines_returns (h : settings.Valid) (hx : x.isFinite = true) (o : Option RadicalSum) :
    Returns (resultLines settings (.real x) o) fun _ => True := by
  apply (fixedText_returns h hx).bind
  rintro ⟨text, cut⟩ _
  dsimp only
  split
  · exact .ok trivial
  · split
    · apply (approximationLines_returns h hx).bind
      intro lines _
      exact .ok trivial
    · exact .ok trivial

theorem displayText_returns (h : settings.Valid) {w : Worth} (hx : w.value.isFinite = true) :
    Returns (displayText settings w) fun _ => True := by
  rw [displayText]
  split
  · exact .ok trivial
  · exact ((fixedText_returns h hx).mono fun _ _ => trivial).map

/-- The reply has a text. -/
def Replied (r : Session × Reply) : Prop := ∃ text, r.2.text? = .ok text

theorem Ready.expression_answers (h : s.Ready) (regular : lib.Regular) (line : String) :
    Answers (s.expression lib line) Replied := by
  apply (h.evaluate_answers regular line).bind
  intro r finite
  cases r with
  | failure code message => exact .ok ⟨_, rfl⟩
  | value w =>
      apply (Answers.lift (resultLines_returns h.settings (finite w rfl) w.exact)).bind
      intro lines _
      apply (Answers.lift (displayText_returns h.settings (finite w rfl))).bind
      intro display _
      exact .ok ⟨_, rfl⟩

theorem Ready.definition_answers (h : s.Ready) (regular : lib.Regular) (name text : String) :
    Answers (s.definition lib name text) Replied := by
  apply (h.evaluate_answers regular text).bind
  intro r finite
  cases r with
  | failure code message => exact .ok ⟨_, rfl⟩
  | value w =>
      apply (Answers.mapError fun _ _ => trivial).bind
      intro store _
      obtain ⟨⟨shown, cut⟩, written, _⟩ := fixedText_returns h.settings (finite w rfl)
      rw [written]
      exact .ok ⟨_, rfl⟩

theorem settingValue_returns {nesting : Nat} {cs : List Char} (shallow : Json.ofText nesting cs ≠ .error .tooDeep) :
    Returns (settingValue nesting cs) fun _ => True := by
  rw [settingValue]
  split
  · exact .ok trivial
  · exact .ok trivial
  · rename_i deep
    exact absurd deep shallow

theorem Sound.change_answers (h : s.Sound) (disk : Disk) {argument : List Char}
    (shallow : Json.ofText s.nesting (splitAtSpace argument).2 ≠ .error .tooDeep) :
    Answers (s.change disk argument) Replied := by
  apply (Answers.lift (settingValue_returns shallow)).bind
  intro value _
  dsimp only
  split
  · exact .ok ⟨_, rfl⟩
  · rename_i stopped
    obtain ⟨p, rfl⟩ := h.file.problem_of_update stopped
    exact .ok ⟨_, rfl⟩

theorem copy_answers (s : Session) (clipboard : Clipboard) : Answers (s.copy clipboard) Replied := by
  unfold copy
  split
  · exact .refuse _
  · exact .refuse _
  · exact .ok ⟨_, rfl⟩

theorem remove_answers (s : Session) (name : String) : Answers (s.remove name) Replied := by
  rw [remove]
  split
  · exact .ok ⟨_, rfl⟩
  · exact .refuse _

/-- The text of the value in a line that changes a setting. -/
def valueText? (line : String) : Option (List Char) :=
  match trim line.toList with
  | ':' :: rest =>
    let (word, argument) := splitAtSpace rest
    if String.ofList word = "set" then some (splitAtSpace (trim argument)).2 else none
  | _ => none

theorem Sound.command_answers (h : s.Sound) (world : World) {cs : List Char}
    (shallow : String.ofList (splitAtSpace cs).1 = "set" →
      Json.ofText s.nesting (splitAtSpace (trim (splitAtSpace cs).2)).2 ≠ .error .tooDeep) :
    Answers (s.command world cs) Replied := by
  rw [command]
  dsimp only
  split_ifs with _ _ _ _ _ _ _ _ changes
  · exact .ok ⟨_, rfl⟩
  · exact .ok ⟨_, rfl⟩
  · exact .ok ⟨_, rfl⟩
  · exact remove_answers s _
  · exact .ok ⟨_, rfl⟩
  · exact .ok ⟨_, rfl⟩
  · exact .ok ⟨_, rfl⟩
  · exact copy_answers s _
  · exact h.change_answers _ (shallow changes)
  · exact .refuse _

theorem Sound.dispatch_answers (h : s.Sound) (regular : lib.Regular) (world : World) (line : String)
    (shallow : ∀ cs ∈ valueText? line, Json.ofText s.nesting cs ≠ .error .tooDeep) :
    Answers (s.dispatch lib world (trim line.toList)) Replied := by
  rw [valueText?] at shallow
  generalize trim line.toList = cs at shallow ⊢
  unfold dispatch
  split
  · exact h.command_answers world fun changes => shallow _ (if_pos changes)
  · split
    · exact h.ready.definition_answers regular _ _
    · exact h.ready.expression_answers regular _

theorem Sound.handle_replied (h : s.Sound) (regular : lib.Regular) (world : World) (line : String)
    (shallow : ∀ cs ∈ valueText? line, Json.ofText s.nesting cs ≠ .error .tooDeep) :
    Replied (s.handle lib world line) := by
  rw [handle]
  split
  · exact ⟨_, rfl⟩
  · obtain ⟨r, done, replied⟩ | ⟨p, refused⟩ := h.dispatch_answers regular world line shallow
    · rw [done]
      exact replied
    · rw [refused]
      exact ⟨_, rfl⟩

/-- A session with valid settings and a file that can be read starts, and it is sound. -/
theorem exists_sound_start {nesting : Nat} {file : SettingsFile} (legible : file.Legible nesting)
    {given : Option Settings} (valid : ∀ settings ∈ given, settings.overDefaults.Valid) :
    ∃ s, Session.start nesting file given = .ok s ∧ s.Sound := by
  obtain ⟨settings, resolved, valid⟩ : Returns (file.resolve nesting given) Settings.Valid := by
    cases given with
    | none => exact legible.load_returns.mono fun _ stored => stored.valid
    | some settings => exact .ok (valid settings rfl)
  obtain ⟨s, starts⟩ := start_of_resolve resolved valid
  have started := started_of_start starts
  obtain rfl := Except.ok.inj (resolved.symm.trans started.resolved)
  refine ⟨s, starts, valid, ?_, ?_⟩
  · rw [started.nesting, started.file]
    exact legible
  · rw [started.store]
    exact finiteDoubles_constants

/-- A session with valid settings and a file that can be read starts. After any lines, in whatever worlds, all its names
are bound to finite doubles, whatever it evaluates is finite, and it has a text in reply to every line, unless the line
gives a setting a value that is nested too deeply. -/
theorem text?_handle_after (regular : lib.Regular) {nesting : Nat} {file : SettingsFile}
    (legible : file.Legible nesting) {given : Option Settings}
    (valid : ∀ settings ∈ given, settings.overDefaults.Valid) :
    ∃ s, Session.start nesting file given = .ok s ∧ ∀ lines,
      FiniteDoubles (s.after lib lines).store.bindings ∧
        (∀ text w, (s.after lib lines).evaluate lib text = .ok (.value w) → w.value.isFinite = true) ∧
        ∀ world line, (∀ cs ∈ valueText? line, Json.ofText nesting cs ≠ .error .tooDeep) →
          ∃ text, ((s.after lib lines).handle lib world line).2.text? = .ok text := by
  obtain ⟨s, starts, sound⟩ := exists_sound_start legible valid
  refine ⟨s, starts, fun lines => ?_⟩
  have sound := after_keeps lib (Sound.turn regular) sound lines
  refine ⟨sound.store, ?_, ?_⟩
  · intro text w evaluated
    exact sound.isFinite_of_evaluate regular evaluated
  · intro world line shallow
    apply sound.handle_replied regular world line
    rwa [nesting_after, (started_of_start starts).nesting]

/-- The replies to two definitions and a change of a setting. -/
theorem text?_handle_after_change : ∃ s, Session.start 987 .absent (some Settings.defaults) = .ok s ∧
    FiniteDoubles (s.after .atUnit (calmly ["let x = cos(0)", "ln(x) + 1 / 3"])).store.bindings ∧
    ∃ text, ((s.after .atUnit (calmly ["let x = cos(0)", "ln(x) + 1 / 3"])).handle .atUnit .calm
      ":set decimal_places 3").2.text? = .ok text := by
  have valid : ∀ settings ∈ some Settings.defaults, settings.overDefaults.Valid := by
    rintro _ ⟨⟩
    exact Settings.valid_defaults
  have legible : SettingsFile.absent.Legible 987 := trivial
  obtain ⟨s, starts, run⟩ := text?_handle_after Elementary.regular_atUnit legible valid
  obtain ⟨finite, _, replies⟩ := run (calmly ["let x = cos(0)", "ln(x) + 1 / 3"])
  refine ⟨s, starts, finite, replies .calm _ ?_⟩
  have three : valueText? ":set decimal_places 3" = some (Json.number 3).toFile.toList := by decide +kernel
  rw [three]
  rintro _ ⟨⟩
  rw [Json.ofText_toFile (.number _)]
  exact nofun

end Session

end Surd
