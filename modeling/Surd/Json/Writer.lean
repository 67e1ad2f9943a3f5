import Surd.Json.Basic

/-!
# Writing JSON

Values are written in ASCII: every other code point of a text is escaped by the numbers of its UTF-16 units. The
settings file has one item a line, four blanks deeper at each level; a single line has a blank after each comma and
colon.
-/

namespace Surd.Json

/-- The escape of one UTF-16 unit. -/
def escapeUnit (n : Nat) : List Char := '\\' :: 'u' :: hexText 4 n

/-- A character of a text inside quotes. -/
def escapeChar (c : Char) : List Char :=
  if c = '"' then ['\\', '"']
  else if c = '\\' then ['\\', '\\']
  else if c = '\n' then ['\\', 'n']
  else if c = '\r' then ['\\', 'r']
  else if c = '\t' then ['\\', 't']
  else if c = '\x08' then ['\\', 'b']
  else if c = '\x0c' then ['\\', 'f']
  else if 32 ≤ c.toNat ∧ c.toNat < 127 then [c]
  else if c.toNat < 0x10000 then escapeUnit c.toNat
  else
    let n := c.toNat - 0x10000
    escapeUnit (0xD800 + n / 0x400) ++ escapeUnit (0xDC00 + n % 0x400)

/-- A code point of a text inside quotes. -/
def escapePoint (p : CodePoint) : List Char :=
  match p.char? with
  | some c => escapeChar c
  | none => escapeUnit p.value

/-- A text in quotes. -/
def quote (s : CodePoints) : List Char := '"' :: s.flatMap escapePoint ++ ['"']

/-- A number; the doubles that are no numbers have names. -/
def writeNumber : Number → List Char
  | .real .nan => "NaN".toList
  | .real (.infinite s) => if s then "-Infinity".toList else "Infinity".toList
  | n => n.text.toList

/-- The line break before an item at a level, or nothing where everything is on one line. -/
def lineBreak (level : Option Nat) : List Char :=
  match level with
  | none => []
  | some n => '\n' :: List.replicate (4 * n) ' '

/-- The separator between items at a level. -/
def separator (level : Option Nat) : List Char :=
  match level with
  | none => [',', ' ']
  | some _ => ',' :: lineBreak level

mutual
/-- A value, on one line or with its items at deeper levels. -/
def write (level : Option Nat) : Json → List Char
  | null => "null".toList
  | bool b => (if b then "true" else "false").toList
  | number n => writeNumber n
  | string s => quote s
  | array [] => ['[', ']']
  | array (v :: rest) =>
    let inner := level.map (· + 1)
    '[' :: lineBreak inner ++ (write inner v ++ writeItems inner rest) ++ lineBreak level ++ [']']
  | object [] => ['\x7b', '\x7d']
  | object ((name, v) :: rest) =>
    let inner := level.map (· + 1)
    '\x7b' :: lineBreak inner ++ (quote name ++ [':', ' '] ++ write inner v ++ writeMembers inner rest) ++
      lineBreak level ++ ['\x7d']

/-- The later items of an array. -/
def writeItems (level : Option Nat) : List Json → List Char
  | [] => []
  | v :: rest => separator level ++ write level v ++ writeItems level rest

/-- The later members of an object. -/
def writeMembers (level : Option Nat) : List (CodePoints × Json) → List Char
  | [] => []
  | (name, v) :: rest =>
    separator level ++ quote name ++ [':', ' '] ++ write level v ++ writeMembers level rest
end

/-- A value on one line. -/
def toLine (v : Json) : String := String.ofList (write none v)

/-- A value as the content of a file. -/
def toFile (v : Json) : String := String.ofList (write (some 0) v)

end Surd.Json
