import Surd.Session.Handling

/-!
# The command line

With arguments, the calculator handles them as one line, prints the reply and reports by its status whether the
printed text starts like an error. Without, it greets, and handles the lines of its input after a prompt each until
it is told to stop or the input ends. Before either it makes sure that the files it consists of are there.

A fault that a line meets ends the run; nothing is reported then.
-/

namespace Surd.CommandLine

/-- The files that the start-up check looks for. -/
def requiredFiles : List String :=
  ["UI.py", "MathEngine.py", "ExpressionParser.py", "RadicalEngine.py", "ScientificEngine.py", "VariableStore.py",
   "config_manager.py", "error.py"]

/-- What the start-up check prints about missing files. -/
def missingText (missing : List String) : String :=
  "Error: The following files are missing or in the wrong location:\n" ++
    String.join (missing.map fun name => "- " ++ name ++ "\n")

/-- The first line that is printed when lines are read. -/
def greeting : String := "Radical Calculator. Type :help for commands.\n"

/-- What is printed before each line is read. -/
def prompt : String := "> "

/-- What a run leaves: its status, what it printed, and the settings file. -/
structure Report where
  status : Nat
  output : String
  file : SettingsFile

/-- Whether a printed text starts like an error. -/
def looksLikeError (text : String) : Bool := "Error".toList.isPrefixOf text.toList

/-- The status of a run that printed a text. -/
def status (text : String) : Nat := if looksLikeError text then 1 else 0

/-- What is reported of a line that was handled. -/
def reported (r : Session × Reply) : Except Fault Report := do
  let text ← r.2.text?
  return ⟨status text, text ++ "\n", r.1.file⟩

/-- A run with arguments. -/
def oneShot (lib : Elementary) (s : Session) (world : World) (arguments : List String) : Except Fault Report :=
  reported (s.handle lib world (" ".intercalate arguments))

/-- What is printed for a reply to a line that was read. -/
def printed (text : String) : String := if text.isEmpty then "" else text ++ "\n"

/-- A run over the lines of an input, after what was printed before. -/
def converse (lib : Elementary) (s : Session) (output : String) : List (World × String) → Except Fault Report
  | [] => .ok ⟨0, output ++ prompt ++ "\n", s.file⟩
  | (world, line) :: rest => do
    let (s, reply) := s.handle lib world line
    let text ← reply.text?
    let output := output ++ prompt ++ printed text
    if s.running then converse lib s output rest else return ⟨0, output, s.file⟩

/-- The lines of an input. What follows the last line feed is a line unless it is empty. -/
def inputLines (input : String) : List String :=
  let parts := input.toList.splitOn '\n'
  let parts := if parts.getLast? = some [] then parts.dropLast else parts
  parts.map String.ofList

/-- A run of the calculator, given the files that the start-up check does not find and the worlds around the lines. -/
def run (lib : Elementary) (nesting : Nat) (worlds : Nat → World) (missing arguments : List String) (input : String)
    (file : SettingsFile) : Except Fault Report := do
  if !missing.isEmpty then return ⟨1, missingText missing, file⟩
  let settings ← file.load nesting
  let s ← Session.start nesting file (some settings)
  if arguments.isEmpty then converse lib s greeting ((inputLines input).mapIdx fun n line => (worlds n, line))
  else oneShot lib s (worlds 0) arguments

end Surd.CommandLine
