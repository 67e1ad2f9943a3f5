import Surd.Settings.Basic
import Surd.Json.Reader
import Surd.Json.Writer
import Surd.Problem
import Surd.Text.Utf8

/-!
# The settings file

The settings are kept in a file, which may be absent, hold any bytes or be a directory. Loading falls back to the
defaults where the file is absent, is no JSON or is no object, and entry by entry where a value does not suit; bytes
that are not UTF-8, a directory and a value that is nested too deeply are faults. How deep is too deep depends on the
place from which the file is read, so every load is told how deep it can follow.

Changing a setting loads all of them, changes one and writes all. A file is emptied when it is opened for writing. The
disk may refuse to open it, and then it stays as it was; or it may stop taking what is written, and then the file is
left with the beginning of that.
-/

namespace Surd

/-- What stands in the place of the settings file. -/
inductive SettingsFile where
  | absent
  | text (content : String)
  /-- Bytes that are not UTF-8. -/
  | binary (bytes : List Nat)
  | directory

/-- How the disk takes what is saved. -/
inductive Disk where
  | taking
  /-- The file is not opened for writing. -/
  | refusing (reason : String)
  /-- The file is opened, but no more than so many characters get into it. -/
  | stopping (written : Nat) (reason : String)

namespace SettingsFile

/-- A file with these bytes. -/
def ofBytes (bytes : List Nat) : SettingsFile :=
  match Utf8.ofBytes? bytes with
  | some s => text s
  | none => binary bytes

/-- The content of the file as it can be shown; nothing where there is no file. -/
def shown : SettingsFile → Option String
  | absent => none
  | text s => some s
  | binary bytes => some (Utf8.ofBytes bytes)
  | directory => none

/-- All settings, from a text in which arrays and objects may be nested `nesting` deep within the outermost one. -/
def load (nesting : Nat) : SettingsFile → Except Fault Settings
  | absent => .ok Settings.defaults
  | text s =>
    match Json.ofText nesting s.toList with
    | .ok v => .ok (Settings.ofFileValue v)
    | .error .malformed => .ok Settings.defaults
    | .error .tooDeep => .error .nestedTooDeep
  | binary _ => .error .undecodable
  | directory => .error .directory

/-- One setting; that of an unknown name is zero. -/
def loadOne (nesting : Nat) (file : SettingsFile) (name : String) : Except Fault Json := do
  return ((← file.load nesting).get? (codePoints name)).getD (.number 0)

/-- Settings that are given, put over the defaults, or else those of the file. -/
def resolve (nesting : Nat) (file : SettingsFile) : Option Settings → Except Fault Settings
  | some settings => .ok settings.overDefaults
  | none => file.load nesting

/-! ## Changes -/

/-- A use of the file. It may stop, and the file is then as it was left. -/
abbrev Use := EStateM Stop SettingsFile

/-- Read all settings. -/
def reading (nesting : Nat) : Use Settings := fun file =>
  match file.load nesting with
  | .ok settings => .ok settings file
  | .error f => .error (.fault f) file

/-- Open the file for writing, which empties it. -/
def emptying (disk : Disk) : Use Unit := fun file =>
  match disk, file with
  | .refusing reason, file => .error (.problem (.settingsNotSaved reason)) file
  | _, directory => .error (.problem (.settingsNotSaved Fault.directory.message)) directory
  | _, _ => .ok () (text "")

/-- The first characters of a text. -/
def beginning (n : Nat) (content : String) : String := String.ofList (content.toList.take n)

/-- Write to the file that was emptied. -/
def writing (disk : Disk) (content : String) : Use Unit := fun _ =>
  match disk with
  | .stopping written reason => .error (.problem (.settingsNotSaved reason)) (text (beginning written content))
  | _ => .ok () (text content)

/-- Save all settings. -/
def save (disk : Disk) (settings : Settings) : Use Settings := do
  emptying disk
  writing disk (Json.object settings).toFile
  return settings

/-- Give a known setting a value that suits it, among all that the file gives. -/
def update (nesting : Nat) (disk : Disk) (name : String) (value : Json) : Use Settings := do
  match Settings.isValid? (codePoints name) value with
  | none => throw (.problem (.unknownSetting name))
  | some false => throw (.problem (.invalidSetting name value.describe))
  | some true =>
    let settings ← reading nesting
    save disk (settings.put (codePoints name) value)

end SettingsFile

end Surd
