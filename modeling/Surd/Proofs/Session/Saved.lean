import Surd.Proofs.Session.Turn

/-!
# Settings of a session and of its file

A session that starts with the settings of its file has the settings that its file gives: an accepted change is the same
in both, a change that is refused leaves both alone, and nothing else touches either. The one place at which the two can
part is a change that the disk cuts short: the file has been emptied by then, and the session keeps what it had.
-/

namespace Surd

/-- The disk takes all that is written to a file that it lets be opened. -/
def World.Whole (world : World) : Prop := ∀ written reason, world.disk ≠ .stopping written reason

namespace Session

variable {lib : Elementary} {world : World} {s s' : Session} {reply : Reply}

/-- The file gives the settings that the session has. -/
def Saved (s : Session) : Prop := s.file.load s.nesting = .ok s.settings

theorem Saved.turn {cs : List Char} (turn : Turn lib world s cs s' reply) (h : s.Saved) :
    s'.Saved ∨ Cut world s s' reply := by
  rw [Saved, turn.nesting]
  obtain ⟨file, settings⟩ | ⟨name, value, settings, updated, changed⟩ | cut := turn.settings
  · rw [file, settings]
    exact .inl h
  · obtain ⟨_, _, _, loaded, read, rfl⟩ := SettingsFile.update_eq_ok updated
    obtain rfl := Except.ok.inj (h.symm.trans read)
    rw [changed]
    exact .inl (SettingsFile.load_of_update updated)
  · exact .inr cut

/-- The disk cuts the saving of a setting short at one of the lines, and before that the file gave the settings. -/
def Parts (lib : Elementary) (s : Session) (lines : List (World × String)) : Prop :=
  ∃ before world line rest, lines = before ++ (world, line) :: rest ∧ (s.after lib before).Saved ∧
    Cut world (s.after lib before) ((s.after lib before).handle lib world line).1
      ((s.after lib before).handle lib world line).2

/-- The file gives the settings after any lines, unless they parted at one of them. -/
theorem Saved.after (lib : Elementary) (h : s.Saved) (lines : List (World × String)) :
    (s.after lib lines).Saved ∨ s.Parts lib lines := by
  induction lines generalizing s with
  | nil => exact .inl h
  | cons l lines ih =>
      obtain ⟨world, line⟩ := l
      obtain saved | cut := h.turn (turn_handle lib s world line)
      · obtain saved | ⟨before, world', line', rest, rfl, saved, cut⟩ := ih saved
        · exact .inl saved
        · exact .inr ⟨(world, line) :: before, world', line', rest, rfl, saved, cut⟩
      · exact .inr ⟨[], world, line, lines, rfl, h, cut⟩

/-- Changes of settings; the disk refuses to open the file for one of them. -/
def changes : List (World × String) :=
  [(.calm, ":set degree_mode true"), (⟨.refusing "Permission denied", .accepting⟩, ":set decimal_places 3"),
    (.calm, ":set theme 2")]

end Session

end Surd
