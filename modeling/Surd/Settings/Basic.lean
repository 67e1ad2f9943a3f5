import Surd.Json.Basic

/-!
# Settings

The settings are named values in order: eight known names with defaults, and whatever else a settings file holds.
A known setting has a kind that follows its default and, if it is a number, a range; the two truth values are never
numbers here.
-/

namespace Surd

/-- The settings in order. -/
abbrev Settings := Entries CodePoints Json

namespace Settings

/-- The known settings with their defaults. -/
def defaults : Settings :=
  [(codePoints "decimal_places", .number (.int 10)),
   (codePoints "radical_precision", .number (.real (Decimal.toDouble ⟨false, 1, -4⟩))),
   (codePoints "max_exact_integer", .number (.int 1000000000000)),
   (codePoints "degree_mode", .bool false),
   (codePoints "approximate_radicals", .bool true),
   (codePoints "auto_ans", .bool true),
   (codePoints "history_size", .number (.int 50)),
   (codePoints "log_level", .string (codePoints "WARNING"))]

/-- The range of a numeric setting, both ends included. -/
def range (name : CodePoints) : Number × Number :=
  if name = codePoints "decimal_places" then (0, 100)
  else if name = codePoints "radical_precision" then (0, 1)
  else if name = codePoints "max_exact_integer" then (1, 100000000000000)
  else (0, .int 10000)

/-- The levels of the log. -/
def logLevels : List String := ["DEBUG", "INFO", "WARNING", "ERROR", "CRITICAL"]

/-- The capital of a letter. Of the letters beyond ASCII only the dotless i has a capital within a level's name. -/
def capital (c : Char) : Char := if c = 'ı' then 'I' else c.toUpper

/-- Whether a text names a level of the log in letters of any case. -/
def isLogLevel (s : CodePoints) : Bool :=
  (s.text?.map fun t => logLevels.contains (String.ofList (t.toList.map capital))).getD false

/-- Whether a number lies in the range of a setting. -/
def inRange (name : CodePoints) (n : Number) : Bool := (range name).1.le n && n.le (range name).2

/-- Whether a value suits a setting with this default. -/
def suits (name : CodePoints) (default value : Json) : Bool :=
  match default, value with
  | .bool _, .bool _ => true
  | .number (.int _), .number (.int n) => inRange name (.int n)
  | .number (.real _), .number (.int n) => inRange name (.int n)
  | .number (.real _), .number (.real x) => x.isFinite && inRange name (.real x)
  | .string _, .string s => isLogLevel s
  | _, _ => false

/-- Whether a value suits a known setting; nothing for other names. -/
def isValid? (name : CodePoints) (value : Json) : Option Bool :=
  (defaults.get? name).map fun default => suits name default value

/-- The settings with one entry of a file taken in, unless its name is known and its value does not suit. -/
def take (settings : Settings) (entry : CodePoints × Json) : Settings :=
  if isValid? entry.1 entry.2 = some false then settings else settings.put entry.1 entry.2

/-- The settings that the value of a settings file gives: the entries of an object over the defaults. -/
def ofFileValue : Json → Settings
  | .object members => members.foldl take defaults
  | _ => defaults

/-- The defaults with settings put over them, whatever their values are. -/
def overDefaults (settings : Settings) : Settings := defaults.merge settings

/-! ## What the settings say -/

/-- The value of a setting; that of a name that is not there is null. -/
def value (settings : Settings) (name : String) : Json := (settings.get? (codePoints name)).getD .null

/-- Whether a setting is switched on. -/
def isOn (settings : Settings) (name : String) : Bool := (settings.value name).isOn

/-- The number that a setting has, where it is compared by `relation` on the right of a number of kind `left`. -/
def comparand (settings : Settings) (name relation left : String) : Except Fault Number :=
  match (settings.value name).number? with
  | some n => .ok n
  | none => .error (.incomparable relation left (settings.value name).kind)

/-- The greatest whole number whose square root is kept exact. -/
def exactLimit (settings : Settings) : Except Fault Number :=
  settings.comparand "max_exact_integer" "<=" "float"

/-- The precision with which decimals are recognised as radicals. -/
def radicalPrecision (settings : Settings) : Except Fault Number :=
  settings.comparand "radical_precision" "<" "float"

/-- The number of decimal places of a result that is not whole. A value that is not positive counts as none, and
only a positive whole number is a number of places. -/
def decimalPlaces (settings : Settings) : Except Fault Nat :=
  match settings.value "decimal_places" with
  | .bool true => .error .decimalTooLong
  | v =>
    match v.number? with
    | some (.int n) => .ok n.toNat
    | some (.real x) => if x.compareInt? 0 == some .gt then .error .decimalTooLong else .ok 0
    | none => .error (.incomparable ">" v.kind "int")

/-- What can be counted stays below this. -/
def capacityLimit : Int := 9223372036854775808

/-- How many results the history of a new session keeps; nothing where there is no bound. -/
def historyCapacity (settings : Settings) : Except Fault (Option Nat) :=
  match settings.value "history_size" with
  | .null => .ok none
  | v =>
    match v.number? with
    | some (.int n) =>
      if n < -capacityLimit ∨ capacityLimit ≤ n then .error .capacityTooLarge
      else if n < 0 then .error .negativeCapacity
      else .ok (some n.toNat)
    | _ => .error .notAnInteger

end Settings

end Surd
