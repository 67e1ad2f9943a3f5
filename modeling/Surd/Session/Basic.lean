import Surd.Evaluation
import Surd.Store.Substitution
import Surd.Settings.File
import Surd.ErrorText
import Surd.Radical.Recognition
import Surd.Decimal.Places

/-!
# Sessions

A session holds what a running calculator knows: the bound names, the settings, the results so far, the last result
as it can be copied, and whether it goes on. With it go the settings file and the texts that the clipboard took, the two
things outside the calculator that a line can change. Whether disk and clipboard take what a line gives them is up to
the world around that line.

The history keeps the most recent results; how many is settled when the session starts.
-/

namespace Surd

/-- A clipboard takes a text or refuses it for a reason. -/
inductive Clipboard where
  | accepting
  | refusing (reason : String)

/-- What is around a calculator while it handles a line. -/
structure World where
  disk : Disk
  clipboard : Clipboard

/-- A running calculator. -/
structure Session where
  store : Store
  settings : Settings
  /-- The expressions evaluated so far with the lines shown for them, oldest first. -/
  history : List (String × List String)
  /-- How many results the history keeps; nothing where there is no bound. -/
  capacity : Option Nat
  /-- The last result as it can be copied. -/
  lastDisplay : Option String
  running : Bool
  /-- How deep arrays and objects may be nested within the outermost one where JSON is read. -/
  nesting : Nat
  file : SettingsFile
  /-- The texts that the clipboard took, oldest first. -/
  copied : List String

/-- What a session answers to a line. -/
inductive Reply where
  /-- The line was carried out; the text may be empty. -/
  | done (text : String)
  /-- The line failed. -/
  | failed (code message : String)
  /-- The line met a fault that is not reported under a code. -/
  | broken (fault : Fault)
  deriving DecidableEq

/-- The answer to a line that was stopped. -/
def Reply.ofStop : Stop → Reply
  | .problem p => failed p.code p.message
  | .fault f => broken f

/-- What evaluation is told by the settings. -/
def Settings.options (settings : Settings) : Options where
  degrees := settings.isOn "degree_mode"
  exactLimit := settings.exactLimit

namespace Session

/-- A new session with settings that are given or are those of the file. -/
def start (nesting : Nat) (file : SettingsFile) (given : Option Settings) : Except Fault Session := do
  let settings ← file.resolve nesting given
  let capacity ← settings.historyCapacity
  return {
    store := .initial
    settings, capacity, nesting, file
    history := []
    lastDisplay := none
    running := true
    copied := [] }

/-- The sign in front of a result whose digits were cut, and of a recognised radical. -/
def approximately : String := "≈"

/-- The greatest radicand of a recognised radical that is shown. -/
def shownRadicandLimit : Int := 1000

/-- A value with the decimal places of the settings, and whether digits were cut. Neither a whole value nor an
infinity asks for the places. -/
def fixedText (settings : Settings) (a : Number) : Except Fault (String × Bool) := do
  if a.isWhole || a.isInfinite then a.toFixed 0 else a.toFixed (← settings.decimalPlaces)

/-- An exact side with a radical in it. -/
def withRadicals (exact : Option RadicalSum) : Option RadicalSum := exact.filter RadicalSum.hasRadicals

/-- The line for a recognised radical, if the radicand is worth showing. The precision is needed only for a decimal
whose square is in reach. -/
def approximationLines (settings : Settings) (a : Number) : Except Fault (List String) := do
  if (← a.toDouble).isWhole || (← squareInReach? a).isNone then return []
  let r ← Radical.recognise a (← settings.radicalPrecision)
  if Number.lt 1 r.radicand && r.radicand.le (.int shownRadicandLimit) then
    return [approximately ++ " " ++ r.text ++ " (approx.)"]
  else return []

/-- The lines shown for a value: the decimal, and below it the exact radical sum or a radical that the decimal is
recognised as. -/
def resultLines (settings : Settings) (a : Number) (exact : Option RadicalSum) : Except Fault (List String) := do
  let (text, cut) ← fixedText settings a
  let first := (if cut then approximately ++ " " else "= ") ++ text
  match withRadicals exact with
  | some s => return [first, "= " ++ s.text]
  | none =>
    if settings.isOn "approximate_radicals" then return first :: (← approximationLines settings a)
    else return [first]

/-- The history with one more result, the oldest ones dropped that it has no room for. -/
def remember (s : Session) (line : String) (lines : List String) : List (String × List String) :=
  let all := s.history ++ [(line, lines)]
  match s.capacity with
  | none => all
  | some n => all.drop (all.length - n)

end Session

end Surd
