import Surd.Proofs.Settings.File

/-!
# Updates of the settings file

An update reads the file and only then opens it for writing, which empties it. So it has refused the setting or failed
to read the file before anything changes, and an update that is carried out leaves what it read with one value changed.
In between it is up to the disk: it may refuse to open the file, and then nothing changes either, or cut the saving
short, and then the file is left with the beginning of the settings (`CutShort`).
-/

namespace Surd.SettingsFile

open Settings

variable {nesting : Nat} {disk : Disk} {file file' : SettingsFile} {name : String} {value : Json}
  {settings loaded : Settings} {stop : Stop} {f : Fault}

/-! ## What an update comes to -/

/-- The ways in which an update can end. -/
inductive Update (nesting : Nat) (disk : Disk) (name : String) (value : Json) (file : SettingsFile) :
    EStateM.Result Stop SettingsFile Settings → Prop
  | unknown (unknown : isValid? (codePoints name) value = none) :
      Update nesting disk name value file (.error (.problem (.unknownSetting name)) file)
  | unsuited (unsuited : isValid? (codePoints name) value = some false) :
      Update nesting disk name value file (.error (.problem (.invalidSetting name value.describe)) file)
  | unread (suited : isValid? (codePoints name) value = some true) {f : Fault} (failed : file.load nesting = .error f) :
      Update nesting disk name value file (.error (.fault f) file)
  | unopened (suited : isValid? (codePoints name) value = some true) {loaded : Settings} {reason : String}
      (read : file.load nesting = .ok loaded) (refuses : disk = .refusing reason) :
      Update nesting disk name value file (.error (.problem (.settingsNotSaved reason)) file)
  | cut (suited : isValid? (codePoints name) value = some true) {loaded : Settings} {written : Nat} {reason : String}
      (read : file.load nesting = .ok loaded) (stops : disk = .stopping written reason) :
      Update nesting disk name value file (.error (.problem (.settingsNotSaved reason))
        (text (beginning written (Json.object (loaded.put (codePoints name) value)).toFile)))
  | saved (suited : isValid? (codePoints name) value = some true) {loaded : Settings}
      (read : file.load nesting = .ok loaded) (takes : disk = .taking) :
      Update nesting disk name value file (.ok (loaded.put (codePoints name) value)
        (text (Json.object (loaded.put (codePoints name) value)).toFile))

/-- An update to a value that suits its setting saves what it has read. -/
theorem update_of_load (suited : isValid? (codePoints name) value = some true)
    (read : file.load nesting = .ok loaded) :
    update nesting disk name value file = save disk (loaded.put (codePoints name) value) file := by
  simp only [update, suited, bind, EStateM.bind, reading, read]

theorem update_of_load_error (suited : isValid? (codePoints name) value = some true)
    (failed : file.load nesting = .error f) : update nesting disk name value file = .error (.fault f) file := by
  simp only [update, suited, bind, EStateM.bind, reading, failed]

/-- A file that can be read is no directory, so what becomes of it is up to the disk. -/
theorem save_of_load (read : file.load nesting = .ok loaded) (disk : Disk) (settings : Settings) :
    save disk settings file = match disk with
      | .taking => .ok settings (text (Json.object settings).toFile)
      | .refusing reason => .error (.problem (.settingsNotSaved reason)) file
      | .stopping written reason =>
        .error (.problem (.settingsNotSaved reason)) (text (beginning written (Json.object settings).toFile)) := by
  cases file with
  | directory => cases read
  | absent | text | binary => cases disk <;> rfl

/-- Every update ends in one of these ways. -/
theorem update_ends (nesting : Nat) (disk : Disk) (name : String) (value : Json) (file : SettingsFile) :
    Update nesting disk name value file (update nesting disk name value file) := by
  cases valid : isValid? (codePoints name) value with
  | none =>
      simp only [update, valid]
      exact .unknown valid
  | some suited =>
      cases suited with
      | false =>
          simp only [update, valid]
          exact .unsuited valid
      | true =>
          cases read : file.load nesting with
          | error f =>
              rw [update_of_load_error valid read]
              exact .unread valid read
          | ok loaded =>
              rw [update_of_load valid read, save_of_load read]
              cases disk with
              | taking => exact .saved valid read rfl
              | refusing reason => exact .unopened valid read rfl
              | stopping written reason => exact .cut valid read rfl

/-- An update that is carried out writes what it loads with the one setting changed. -/
theorem update_eq_ok (h : update nesting disk name value file = .ok settings file') :
    isValid? (codePoints name) value = some true ∧ disk = .taking ∧ file' = text (Json.object settings).toFile ∧
      ∃ loaded, file.load nesting = .ok loaded ∧ settings = loaded.put (codePoints name) value := by
  have ends := update_ends nesting disk name value file
  rw [h] at ends
  cases ends with
  | saved suited read takes => exact ⟨suited, takes, rfl, _, read, rfl⟩

/-- An update leaves a file that gives the settings it was carried out with. -/
theorem load_of_update (h : update nesting disk name value file = .ok settings file') :
    file'.load nesting = .ok settings := by
  obtain ⟨suited, _, rfl, loaded, read, rfl⟩ := update_eq_ok h
  apply load_written
  exact (stored_of_load read).put (by rw [suited]; decide) (Json.joined_codePoints _) (readable_of_suited suited)

/-! ## When an update stops -/

/-- The disk stops taking the settings with one value changed, so that the file is left with the beginning of them. -/
def CutShort (nesting : Nat) (disk : Disk) (name : String) (value : Json) (reason : String)
    (file file' : SettingsFile) : Prop :=
  isValid? (codePoints name) value = some true ∧ ∃ written loaded, disk = .stopping written reason ∧
    file.load nesting = .ok loaded ∧
    file' = text (beginning written (Json.object (loaded.put (codePoints name) value)).toFile)

/-- An update that stops leaves the file as it was, unless the disk cuts it short. -/
theorem update_eq_error (h : update nesting disk name value file = .error stop file') :
    file' = file ∨ ∃ reason, stop = .problem (.settingsNotSaved reason) ∧
      CutShort nesting disk name value reason file file' := by
  have ends := update_ends nesting disk name value file
  rw [h] at ends
  cases ends with
  | unknown | unsuited | unread | unopened => exact .inl rfl
  | cut suited read stops => exact .inr ⟨_, rfl, suited, _, _, stops, read, rfl⟩

/-- What is left of a file that could be read can be read. -/
theorem CutShort.legible {reason : String} (h : CutShort nesting disk name value reason file file') :
    file'.Legible nesting := by
  obtain ⟨suited, written, loaded, _, read, rfl⟩ := h
  apply legible_beginning
  exact (stored_of_load read).put (by rw [suited]; decide) (Json.joined_codePoints _) (readable_of_suited suited)

/-- An update of a legible file meets no fault. -/
theorem Legible.problem_of_update (h : file.Legible nesting)
    (stopped : update nesting disk name value file = .error stop file') : ∃ p, stop = .problem p := by
  have ends := update_ends nesting disk name value file
  rw [stopped] at ends
  cases ends with
  | unknown | unsuited | unopened | cut => exact ⟨_, rfl⟩
  | unread _ failed =>
      obtain ⟨loaded, read, _⟩ := h.load_returns
      cases read.symm.trans failed

/-- The code of an update that stops says what is wrong: the name, the value, or the saving of settings that suit and
can be read. -/
theorem code_of_update (h : update nesting disk name value file = .error stop file') :
    (stop.code = "5001" ↔ isValid? (codePoints name) value = none) ∧
      (stop.code = "5002" ↔ isValid? (codePoints name) value = some false) ∧
      (stop.code = "5000" ↔ isValid? (codePoints name) value = some true ∧ file.Legible nesting) := by
  have ends := update_ends nesting disk name value file
  rw [h] at ends
  cases ends with
  | unknown valid => simp [Stop.code, Problem.code, valid]
  | unsuited valid => simp [Stop.code, Problem.code, valid]
  | unread valid failed =>
      have illegible : ¬file.Legible nesting := by
        intro legible
        obtain ⟨loaded, read, _⟩ := legible.load_returns
        cases read.symm.trans failed
      simp [Stop.code, valid, illegible]
  | unopened valid read => simp [Stop.code, Problem.code, valid, legible_of_load read]
  | cut valid read => simp [Stop.code, Problem.code, valid, legible_of_load read]

/-- An update is carried out if the value suits the setting, the file can be read and the disk takes it. -/
theorem exists_update_iff :
    (∃ settings file', update nesting disk name value file = .ok settings file') ↔
      isValid? (codePoints name) value = some true ∧ file.Legible nesting ∧ disk = .taking := by
  constructor
  · rintro ⟨settings, file', updated⟩
    obtain ⟨suited, takes, _, loaded, read, _⟩ := update_eq_ok updated
    exact ⟨suited, legible_of_load read, takes⟩
  · rintro ⟨suited, legible, rfl⟩
    obtain ⟨loaded, read, _⟩ := legible.load_returns
    exact ⟨_, _, (update_of_load suited read).trans (save_of_load read .taking _)⟩

/-! ## What an update leaves -/

/-- One of the settings has a new value in its place, and all else is as before. -/
structure Changed (name : CodePoints) (value : Json) (before after : Settings) : Prop where
  names : Entries.names after = Entries.names before
  value : after.get? name = some value
  others : ∀ other, other ≠ name → after.get? other = before.get? other

theorem changed_put (h : Stored nesting loaded) (suited : isValid? (codePoints name) value = some true) :
    Changed (codePoints name) value loaded (loaded.put (codePoints name) value) where
  names := by
    obtain ⟨default, known, _⟩ := Option.map_eq_some_iff.mp suited
    exact Entries.names_put_of_mem (h.known.subset (List.mem_map_of_mem (Entries.mem_of_get? known))) value
  value := Entries.get?_put_self _ _ _
  others := fun _ different => Entries.get?_put_of_ne value loaded different

/-- An update that is carried out leaves a file that gives what was loaded before with the one value changed; it is
carried out where the value suits the setting, the file can be read and the disk takes what is saved. An update that
refuses the name or the value, or cannot read the file, leaves the file as it was. One whose settings cannot be saved
leaves it so too, unless the disk cuts the saving short. -/
theorem update_reads_back (nesting : Nat) (disk : Disk) (file : SettingsFile) (name : String) (value : Json) :
    (∀ settings file', update nesting disk name value file = .ok settings file' →
      ∃ loaded, file.load nesting = .ok loaded ∧ file'.load nesting = .ok (loaded.put (codePoints name) value) ∧
        settings = loaded.put (codePoints name) value ∧
        Changed (codePoints name) value loaded (loaded.put (codePoints name) value)) ∧
    (∀ stop file', update nesting disk name value file = .error stop file' →
      (stop.code = "5001" ↔ isValid? (codePoints name) value = none) ∧
      (stop.code = "5002" ↔ isValid? (codePoints name) value = some false) ∧
      (stop.code = "5000" ↔ isValid? (codePoints name) value = some true ∧ file.Legible nesting) ∧
      (stop.code ≠ "5000" → file' = file) ∧
      (file' = file ∨ ∃ reason, CutShort nesting disk name value reason file file')) ∧
    ((∃ settings file', update nesting disk name value file = .ok settings file') ↔
      isValid? (codePoints name) value = some true ∧ file.Legible nesting ∧ disk = .taking) := by
  refine ⟨?_, ?_, exists_update_iff⟩
  · intro settings file' updated
    have back := load_of_update updated
    obtain ⟨suited, _, _, loaded, read, rfl⟩ := update_eq_ok updated
    exact ⟨loaded, read, back, rfl, changed_put (stored_of_load read) suited⟩
  · intro stop file' stopped
    obtain ⟨unknown, unsuited, unsaved⟩ := code_of_update stopped
    obtain same | ⟨reason, rfl, cut⟩ := update_eq_error stopped
    · exact ⟨unknown, unsuited, unsaved, fun _ => same, .inl same⟩
    · exact ⟨unknown, unsuited, unsaved, fun other => absurd rfl other, .inr ⟨reason, cut⟩⟩

end Surd.SettingsFile
