import Surd.CommandLine

/-!
# The program

Reading and writing of the real files; everything else is in `Surd.CommandLine`. The settings file is
`config.json` in the working directory. There is no clipboard.
-/

namespace Surd.Program

/-- Where the settings are kept. -/
def settingsPath : String := "config.json"

/-- The settings file as it stands. -/
def readSettingsFile : IO SettingsFile := do
  try
    let bytes ← IO.FS.readBinFile settingsPath
    return SettingsFile.ofBytes (bytes.toList.map UInt8.toNat)
  catch
    | .noFileOrDirectory _ _ _ => return SettingsFile.absent
    | _ => return SettingsFile.directory

/-- Bring the settings file into line with a session. -/
def writeSettingsFile : SettingsFile → IO Unit
  | .text content => IO.FS.writeFile settingsPath content
  | _ => return ()

/-- How deep the arrays and objects of JSON are followed within the outermost one. -/
def nesting : Nat := 987

/-- The clipboard of a machine that has none. -/
def noClipboard : Clipboard := .refusing "there is no clipboard"

/-- What the disk did when it did not take the settings. -/
def failedDisk (before : SettingsFile) (reason : String) : IO Disk := do
  let left ← readSettingsFile
  if left.shown = before.shown then return .refusing reason
  else return .stopping (left.shown.getD "").length reason

/-- Handle a line. It is handled once more where the disk does not take the settings that it changed. -/
def handle (s : Session) (line : String) : IO (Session × Reply) := do
  let handled := s.handle Elementary.machine ⟨.taking, noClipboard⟩ line
  if handled.1.file.shown = s.file.shown then return handled
  try
    writeSettingsFile handled.1.file
    return handled
  catch e =>
    let disk ← failedDisk s.file e.toString
    return s.handle Elementary.machine ⟨disk, noClipboard⟩ line

/-- Handle lines until the session stops or the input ends. -/
partial def converse (input : IO.FS.Stream) (s : Session) : IO UInt32 := do
  IO.print CommandLine.prompt
  let line ← input.getLine
  if line.isEmpty then
    IO.println ""
    return 0
  let (s, reply) ← handle s line
  match reply.text? with
  | .error f =>
    IO.eprintln f.message
    return 1
  | .ok text =>
    IO.print (CommandLine.printed text)
    if s.running then converse input s else return 0

/-- The program: one line from its arguments, or the lines of its input. -/
def start (arguments : List String) : IO UInt32 := do
  let file ← readSettingsFile
  match Session.start nesting file none with
  | .error f =>
    IO.eprintln f.message
    return 1
  | .ok s =>
    if arguments.isEmpty then
      IO.print CommandLine.greeting
      converse (← IO.getStdin) s
    else
      match CommandLine.reported (← handle s (" ".intercalate arguments)) with
      | .error f =>
        IO.eprintln f.message
        return 1
      | .ok report =>
        IO.print report.output
        return report.status.toUInt32

end Surd.Program

/-- The program. -/
def main (arguments : List String) : IO UInt32 := Surd.Program.start arguments
