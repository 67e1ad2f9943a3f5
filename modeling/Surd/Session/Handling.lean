import Surd.Session.Basic

/-!
# Handling lines

A line is blank, a command after a colon, a definition `let name = expression`, or an expression. `Session.handle`
answers it and gives the session after it. Two lines fail only after they changed something: one that changes a setting
where the disk stops taking the settings, and a definition with a value that cannot be written.
-/

namespace Surd

namespace Session

/-- What the calculator can do. -/
def helpText : String :=
  "Enter an expression, e.g.  sqrt(8) + sqrt(2)   or   2 * (x + 3) - sqrt(y)\n" ++
  "  let x = <expr>   define a variable\n" ++
  "  :vars            list variables\n" ++
  "  :del <name>      delete a variable\n" ++
  "  :clear           delete all user variables\n" ++
  "  :history         show this session's results\n" ++
  "  :expand <expr>   show the expression with variables substituted\n" ++
  "  :copy            copy the last result to the clipboard\n" ++
  "  :set <key> <val> change a setting (saved to config.json)\n" ++
  "  :help            show this text\n" ++
  "  :quit            leave"

/-- The session after a line and its reply, where nothing stops it before anything is changed. -/
abbrev Outcome := Except Stop (Session × Reply)

/-- The text up to the first space, and what follows that. -/
def splitAtSpace (cs : List Char) : List Char × List Char :=
  (cs.takeWhile (· ≠ ' '), (cs.dropWhile (· ≠ ' ')).tail)

/-! ## Commands -/

/-- The variables with their numbers. -/
def listing (s : Session) : String :=
  "\n".intercalate (s.store.bindings.map fun b => b.1 ++ " = " ++ b.2.shown)

/-- The results so far. -/
def historyText (s : Session) : String :=
  if s.history.isEmpty then "No history"
  else "\n".intercalate (s.history.map fun h => h.1 ++ "  " ++ "  ".intercalate h.2)

/-- Copy the last result. -/
def copy (s : Session) (clipboard : Clipboard) : Outcome := do
  match s.lastDisplay, clipboard with
  | none, _ => refuse .nothingToCopy
  | some _, .refusing reason => refuse (.clipboardUnavailable reason)
  | some text, .accepting => return ({ s with copied := s.copied ++ [text] }, .done ("Copied " ++ text))

/-- The value that the text after a setting's name denotes: JSON, or else the text itself. -/
def settingValue (nesting : Nat) (cs : List Char) : Except Fault Json :=
  match Json.ofText nesting cs with
  | .ok v => .ok v
  | .error .malformed => .ok (.string (codePoints (String.ofList (trim cs))))
  | .error .tooDeep => .error .nestedTooDeep

/-- Change a setting, in the file and then in the session. -/
def change (s : Session) (disk : Disk) (argument : List Char) : Outcome := do
  let (key, raw) := splitAtSpace argument
  let name := String.ofList key
  let value ← (settingValue s.nesting raw : Except Fault _)
  match SettingsFile.update s.nesting disk name value s.file with
  | .ok _ file =>
    let settings := s.settings.put (codePoints name) value
    return ({ s with file, settings }, .done (name ++ " = " ++ value.toLine))
  | .error stop file => return ({ s with file }, .ofStop stop)

/-- Remove a variable. -/
def remove (s : Session) (name : String) : Outcome :=
  match s.store.delete name with
  | .ok store => .ok ({ s with store }, .done ("Deleted " ++ name))
  | .error p => refuse p

/-- Carry out the command after the colon. -/
def command (s : Session) (world : World) (cs : List Char) : Outcome := do
  let (word, rest) := splitAtSpace cs
  let name := String.ofList word
  let argument := trim rest
  if name = "quit" ∨ name = "exit" ∨ name = "q" then return ({ s with running := false }, .done "")
  else if name = "help" then return (s, .done helpText)
  else if name = "vars" then return (s, .done s.listing)
  else if name = "del" then s.remove (String.ofList argument)
  else if name = "clear" then return ({ s with store := s.store.clear }, .done "Variables cleared")
  else if name = "history" then return (s, .done s.historyText)
  else if name = "expand" then return (s, .done (s.store.substitute (String.ofList argument)))
  else if name = "copy" then s.copy world.clipboard
  else if name = "set" then s.change world.disk argument
  else refuse (.unknownCommand name)

/-! ## Expressions -/

/-- The result of an expression; where the settings say so, it may go on from the last result. -/
def evaluate (lib : Elementary) (s : Session) (text : String) : Except Stop Evaluation.Result := do
  let text ←
    if s.settings.isOn "auto_ans" then (s.store.applyAnswer text).mapError Stop.problem else Except.ok text
  return Evaluation.ofText lib s.store.bindings s.settings.options text.toList

/-- The text of the last result as it can be copied: the exact sum if it has a radical, or else the decimal. -/
def displayText (settings : Settings) (w : Worth) : Except Fault String :=
  match withRadicals w.exact with
  | some e => .ok e.text
  | none => Prod.fst <$> fixedText settings (.real w.value)

/-- Evaluate an expression and keep its result. -/
def expression (lib : Elementary) (s : Session) (line : String) : Outcome := do
  match ← s.evaluate lib line with
  | .failure code message => return (s, .failed code message)
  | .value w =>
    let lines ← (resultLines s.settings (.real w.value) w.exact : Except Fault _)
    let display ← (displayText s.settings w : Except Fault _)
    return ({ s with
      store := s.store.setAnswer (.real w.value)
      lastDisplay := some display
      history := s.remember line lines }, .done ("\n".intercalate lines))

/-- Evaluate an expression and bind a name to its value. The name is bound before the value is written. -/
def definition (lib : Elementary) (s : Session) (name text : String) : Outcome := do
  match ← s.evaluate lib text with
  | .failure code message => return (s, .failed code message)
  | .value w =>
    let store ← (s.store.define name (.real w.value)).mapError Stop.problem
    match fixedText s.settings (.real w.value) with
    | .ok (shown, cut) =>
      return ({ s with store }, .done (name ++ (if cut then " " ++ approximately ++ " " else " = ") ++ shown))
    | .error f => return ({ s with store }, .broken f)

/-- The name and the expression of a definition: `let`, blanks, a name, an equals sign among blanks, and the rest of
the line, in which there is no line feed. -/
def definition? (cs : List Char) : Option (String × String) := do
  let rest ← "let".toList.isPrefixOf? cs
  let start := trimLeft rest
  if start.length = rest.length then none
  let name := start.takeWhile isNameChar
  if !(name.head?.map isLetter).getD false then none
  match trimLeft (start.drop name.length) with
  | '=' :: tail =>
    let body := trimLeft tail
    if body.isEmpty || body.contains '\n' then none
    else return (String.ofList name, String.ofList body)
  | _ => none

/-- The outcome of a line without blanks at its ends. -/
def dispatch (lib : Elementary) (s : Session) (world : World) (cs : List Char) : Outcome :=
  match cs with
  | ':' :: rest => s.command world rest
  | cs =>
    match definition? cs with
    | some (name, text) => s.definition lib name text
    | none => s.expression lib (String.ofList cs)

/-- The session after a line, and the reply to it. -/
def handle (lib : Elementary) (s : Session) (world : World) (line : String) : Session × Reply :=
  let cs := trim line.toList
  if cs.isEmpty then (s, .done "")
  else
    match s.dispatch lib world cs with
    | .ok r => r
    | .error stop => (s, .ofStop stop)

end Session

/-- The text of a reply; a fault has none. -/
def Reply.text? : Reply → Except Fault String
  | done text => .ok text
  | failed code message => .ok (errorText code (some message))
  | broken f => .error f

end Surd
