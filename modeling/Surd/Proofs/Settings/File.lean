import Surd.Settings.File
import Surd.Proofs.Json.Beginning

/-!
# Settings in their file

Loading a settings file gives `Stored` settings: the known names come first in their order, every name occurs once, no
known setting has a value that does not suit, and all of them can be written as JSON. Stored settings are loaded
unchanged from the file that is written for them (`load_written`), and the beginning of that file can be read as well.
-/

namespace Surd

open Json (Joined Readable ReadableMembers joined_codePoints)

variable {nesting : Nat} {settings loaded : Settings} {file file' : SettingsFile} {value : Json}

namespace Settings

/-- What loading a settings file can give. -/
structure Stored (nesting : Nat) (settings : Settings) : Prop where
  known : Entries.names defaults <+: Entries.names settings
  suited : ∀ e ∈ settings, isValid? e.1 e.2 ≠ some false
  readable : ReadableMembers nesting settings

theorem suited_defaults : ∀ e ∈ defaults, isValid? e.1 e.2 ≠ some false := by decide +kernel

theorem stored_defaults : Stored nesting defaults where
  known := List.prefix_rfl
  suited := suited_defaults
  readable :=
    { distinct := by decide +kernel
      joined := by decide
      values := by
        simp only [defaults, List.forall_mem_cons]
        exact ⟨.number _, .number _, .number _, .bool _, .bool _, .bool _, .number _, .string (joined_codePoints _),
          List.forall_mem_nil _⟩ }

theorem points_of_mapM_char? {s : CodePoints} {cs : List Char} (h : s.mapM CodePoint.char? = some cs) :
    cs.map CodePoint.ofChar = s := by
  induction s generalizing cs with
  | nil =>
      obtain rfl := Option.some.inj h
      rfl
  | cons p s ih =>
      rw [List.mapM_cons] at h
      obtain ⟨c, first, h⟩ := Option.bind_eq_some_iff.mp h
      obtain ⟨rest, more, h⟩ := Option.bind_eq_some_iff.mp h
      obtain rfl := Option.some.inj h
      rw [List.map_cons, ih more, Json.ofChar_of_char? first]

theorem joined_of_isLogLevel {s : CodePoints} (h : isLogLevel s = true) : Joined s := by
  rw [isLogLevel, CodePoints.text?] at h
  cases chars : s.mapM CodePoint.char? with
  | none =>
      rw [chars] at h
      cases h
  | some cs => exact points_of_mapM_char? chars ▸ joined_codePoints cs

/-- A value that suits a known setting is no array and no object, and its text is one of letters. -/
theorem readable_of_suited {name : CodePoints} (h : isValid? name value = some true) :
    Readable nesting value := by
  obtain ⟨default, _, suited⟩ := Option.map_eq_some_iff.mp h
  unfold suits at suited
  split at suited
  · exact .bool _
  · exact .number _
  · exact .number _
  · exact .number _
  · exact .string (joined_of_isLogLevel suited)
  · cases suited

theorem Stored.put {name : CodePoints} (h : Stored nesting settings) (suited : isValid? name value ≠ some false)
    (joined : Joined name) (readable : Readable nesting value) : Stored nesting (settings.put name value) where
  known := h.known.trans (Entries.names_prefix_put settings name value)
  suited := by
    intro e he
    obtain rfl | he := Entries.mem_of_mem_put he
    · exact suited
    · exact h.suited e he
  readable := h.readable.put joined readable

theorem Stored.take (h : Stored nesting settings) {entry : CodePoints × Json} (joined : Joined entry.1)
    (readable : Readable nesting entry.2) : Stored nesting (settings.take entry) := by
  rw [Settings.take]
  split
  · exact h
  · rename_i suited
    exact h.put suited joined readable

theorem Stored.foldl_take (h : Stored nesting settings) {members : Settings} (joined : ∀ e ∈ members, Joined e.1)
    (values : ∀ e ∈ members, Readable nesting e.2) : Stored nesting (members.foldl Settings.take settings) := by
  induction members generalizing settings with
  | nil => exact h
  | cons e rest ih =>
      obtain ⟨first, more⟩ := List.forall_mem_cons.mp joined
      obtain ⟨value, later⟩ := List.forall_mem_cons.mp values
      exact ih (h.take first value) more later

/-- The value of a settings file gives settings that it can hold. -/
theorem stored_ofFileValue (h : Readable (nesting + 1) value) : Stored nesting (ofFileValue value) := by
  match value, h with
  | .object members, h =>
      obtain ⟨_, joined, values⟩ := Json.readable_object_iff.mp h
      exact stored_defaults.foldl_take joined values
  | .null, _ | .bool _, _ | .number _, _ | .string _, _ | .array _, _ => exact stored_defaults

theorem overDefaults_stored (h : Stored nesting settings) : settings.overDefaults = settings :=
  Entries.merge_of_prefix h.readable.distinct h.known

/-- Settings that a file can hold are what it gives. -/
theorem ofFileValue_stored (h : Stored nesting settings) : ofFileValue (.object settings) = settings := by
  have taken : settings.foldl Settings.take defaults = defaults.merge settings := by
    apply List.foldl_ext
    intro acc e he
    exact if_neg (h.suited e he)
  rw [ofFileValue, taken]
  exact overDefaults_stored h

end Settings

namespace SettingsFile

open Settings

/-- There is no file, or it holds a text that is not nested too deeply. -/
def Legible (nesting : Nat) : SettingsFile → Prop
  | absent => True
  | text s => Json.ofText nesting s.toList ≠ .error .tooDeep
  | _ => False

theorem stored_of_load (h : file.load nesting = .ok loaded) : Stored nesting loaded := by
  cases file with
  | absent =>
      obtain rfl := Except.ok.inj h
      exact stored_defaults
  | text s =>
      rw [load] at h
      split at h
      · rename_i value read
        obtain rfl := Except.ok.inj h
        exact stored_ofFileValue (Json.readable_of_ofText read)
      · obtain rfl := Except.ok.inj h
        exact stored_defaults
      · cases h
  | binary => cases h
  | directory => cases h

theorem Legible.load_returns (h : file.Legible nesting) : Returns (file.load nesting) (Stored nesting) := by
  suffices loaded : ∃ settings, file.load nesting = .ok settings by
    obtain ⟨settings, loaded⟩ := loaded
    exact ⟨settings, loaded, stored_of_load loaded⟩
  cases file with
  | absent => exact ⟨_, rfl⟩
  | text s =>
      rw [load]
      split
      · exact ⟨_, rfl⟩
      · exact ⟨_, rfl⟩
      · rename_i deep
        exact absurd deep h
  | binary => exact h.elim
  | directory => exact h.elim

theorem legible_of_load (h : file.load nesting = .ok loaded) : file.Legible nesting := by
  cases file with
  | absent => trivial
  | text s =>
      intro deep
      rw [load, deep] at h
      cases h
  | binary => cases h
  | directory => cases h

theorem load_written (h : Stored nesting settings) :
    load nesting (text (Json.object settings).toFile) = .ok settings := by
  rw [load, Json.ofText_toFile (Json.readable_object_iff.mpr h.readable)]
  exact congrArg Except.ok (ofFileValue_stored h)

/-- What is left where the disk stops taking settings that a file can hold can be read. -/
theorem legible_beginning (h : Stored nesting settings) (n : Nat) :
    Legible nesting (text (beginning n (Json.object settings).toFile)) := by
  intro deep
  rw [beginning, String.toList_ofList] at deep
  have whole := Json.tooDeep_of_beginning deep ((Json.object settings).toFile.toList.drop n)
  rw [List.take_append_drop, Json.ofText_toFile (Json.readable_object_iff.mpr h.readable)] at whole
  cases whole

end SettingsFile

end Surd
