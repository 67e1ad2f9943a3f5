import Surd.Proofs.Settings.Valid
import Surd.Proofs.Text.Utf8

/-!
# When loading falls back

A settings file that is absent, or whose bytes are a text in UTF-8 that is nested no deeper than the reader can follow,
gives every known setting a value that suits it, whatever the text is. A directory, other bytes and a text that is
nested too deeply are faults instead (`load_falls_back`). No limit is set here to the digits of a whole number; where
there is one, a text with a longer number is a further fault.
-/

namespace Surd.SettingsFile

open Settings (Valid)

variable {nesting : Nat} {bytes : List Nat} {s : String}

theorem ofBytes_eq_text_iff : ofBytes bytes = text s ↔ bytes = Utf8.encode s.toList := by
  rw [← Utf8.ofBytes?_eq_some_iff, ofBytes]
  split <;> simp_all

/-- The file holds the text that its bytes encode, or the bytes themselves. -/
theorem ofBytes_cases (bytes : List Nat) :
    (∃ s : String, bytes = Utf8.encode s.toList) ∨
      (∀ s : String, bytes ≠ Utf8.encode s.toList) ∧ ofBytes bytes = binary bytes := by
  cases read : Utf8.ofBytes? bytes with
  | some s => exact .inl ⟨s, Utf8.ofBytes?_eq_some_iff.mp read⟩
  | none =>
      refine .inr ⟨fun s encoded => ?_, by simp [ofBytes, read]⟩
      simp [Utf8.ofBytes?_eq_some_iff.mpr encoded] at read

theorem ofBytes_encode (s : String) : ofBytes (Utf8.encode s.toList) = text s := ofBytes_eq_text_iff.mpr rfl

theorem encode_inj {s t : String} : Utf8.encode s.toList = Utf8.encode t.toList ↔ s = t := by
  rw [← ofBytes_eq_text_iff, ofBytes_encode, text.injEq]

theorem load_text_returns_iff :
    Returns (load nesting (text s)) Valid ↔ Json.ofText nesting s.toList ≠ .error .tooDeep := by
  constructor
  · rintro ⟨settings, loaded, _⟩ deep
    rw [load, deep] at loaded
    cases loaded
  · intro shallow
    have legible : Legible nesting (text s) := shallow
    exact legible.load_returns.mono fun _ stored => stored.valid

theorem load_text_eq_nestedTooDeep_iff :
    load nesting (text s) = .error .nestedTooDeep ↔ Json.ofText nesting s.toList = .error .tooDeep := by
  rw [load]
  split <;> simp_all

theorem load_text_ne_undecodable : load nesting (text s) ≠ .error .undecodable := by
  rw [load]
  split <;> simp

/-- Loading gives each known setting a value that suits it where there is no file and where the bytes of the file
are a text that is not nested too deeply, however deep that is; in all other states of the file it meets a fault. This
is exact as long as whole numbers may have any number of digits. -/
theorem load_falls_back (nesting : Nat) (bytes : List Nat) :
    Returns (load nesting absent) Valid ∧ load nesting directory = .error .directory ∧
    (Returns (load nesting (ofBytes bytes)) Valid ↔
      ∃ s : String, bytes = Utf8.encode s.toList ∧ Json.ofText nesting s.toList ≠ .error .tooDeep) ∧
    (load nesting (ofBytes bytes) = .error .nestedTooDeep ↔
      ∃ s : String, bytes = Utf8.encode s.toList ∧ Json.ofText nesting s.toList = .error .tooDeep) ∧
    (load nesting (ofBytes bytes) = .error .undecodable ↔ ∀ s : String, bytes ≠ Utf8.encode s.toList) := by
  have defaults : Settings.Stored nesting Settings.defaults := Settings.stored_defaults
  refine ⟨.ok defaults.valid, rfl, ?_⟩
  obtain ⟨s, rfl⟩ | ⟨other, read⟩ := ofBytes_cases bytes
  · simp [ofBytes_encode, encode_inj, load_text_returns_iff, load_text_eq_nestedTooDeep_iff,
      load_text_ne_undecodable]
  · have undecodable : load nesting (binary bytes) = .error .undecodable := rfl
    simp [read, undecodable, other, Returns.not_error]

end Surd.SettingsFile
