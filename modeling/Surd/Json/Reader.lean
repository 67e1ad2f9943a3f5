import Surd.Json.Basic

/-!
# Reading JSON

A text is a JSON value with blanks around it, or it is refused: because it breaks a rule, which one is not told, or
because it is nested too deeply, if that shows first. Beside the standard, the names of infinity and of "not a number"
are numbers. A number with a fraction or an exponent is a double, every other one a whole number. Of members with the
same name the last one counts, in the place of the first. An escape of half a UTF-16 pair is that half where the
other half does not follow.

Reading recurses on a number of steps, of which twice the length of the text is always enough: a value takes two
steps and at least one character, and so does each further item or member.
-/

namespace Surd.Json

/-- A blank of JSON. -/
def isJsonBlank (c : Char) : Bool := c == ' ' || c == '\t' || c == '\n' || c == '\r'

/-- The text without the blanks at its front. -/
def skipBlanks (cs : List Char) : List Char := cs.dropWhile isJsonBlank

/-- The value of a hexadecimal digit. -/
def hexValue? (c : Char) : Option Nat :=
  if isDigit c then some (digitValue c)
  else if 'a' ≤ c ∧ c ≤ 'f' then some (c.toNat - 'a'.toNat + 10)
  else if 'A' ≤ c ∧ c ≤ 'F' then some (c.toNat - 'A'.toNat + 10)
  else none

/-- Four hexadecimal digits at the front of a text, and what follows them. -/
def unit? : List Char → Option (Nat × List Char)
  | a :: b :: c :: d :: rest => do
    let a ← hexValue? a
    let b ← hexValue? b
    let c ← hexValue? c
    let d ← hexValue? d
    return (((a * 16 + b) * 16 + c) * 16 + d, rest)
  | _ => none

/-- Whether a UTF-16 unit is the first half of a pair. -/
def isHighUnit (n : Nat) : Bool := 0xD800 ≤ n && n < 0xDC00

/-- Whether a UTF-16 unit is the second half of a pair. -/
def isLowUnit (n : Nat) : Bool := 0xDC00 ≤ n && n < 0xE000

/-- The code point with a number. -/
def pointOf (n : Nat) : CodePoint := if h : n < 0x110000 then ⟨n, h⟩ else .ofChar (Char.ofNat 0xFFFD)

/-- The code point after the letter `u` of an escape, which may take a second escape, and what follows it. -/
def escapedPoint? (cs : List Char) : Option (CodePoint × List Char) := do
  let (high, rest) ← unit? cs
  if isHighUnit high then
    match rest with
    | '\\' :: 'u' :: tail =>
      let (low, after) ← unit? tail
      if isLowUnit low then
        return (pointOf (0x10000 + (high - 0xD800) * 0x400 + (low - 0xDC00)), after)
      else return (pointOf high, rest)
    | _ => return (pointOf high, rest)
  else return (pointOf high, rest)

/-- The character that a letter after a backslash stands for. -/
def shortEscape? (c : Char) : Option Char :=
  match c with
  | '"' => some '"'
  | '\\' => some '\\'
  | '/' => some '/'
  | 'b' => some '\x08'
  | 'f' => some '\x0c'
  | 'n' => some '\n'
  | 'r' => some '\r'
  | 't' => some '\t'
  | _ => none

/-- The rest of a text in quotes, up to the closing quote, and what follows that. -/
def textBody? : (steps : Nat) → List Char → Option (CodePoints × List Char)
  | 0, _ => none
  | steps + 1, cs =>
    match cs with
    | [] => none
    | '"' :: rest => some ([], rest)
    | '\\' :: 'u' :: rest => do
      let (p, tail) ← escapedPoint? rest
      let (body, after) ← textBody? steps tail
      return (p :: body, after)
    | '\\' :: e :: rest => do
      let c ← shortEscape? e
      let (body, after) ← textBody? steps rest
      return (.ofChar c :: body, after)
    | c :: rest =>
      if c = '\\' ∨ c.toNat < 32 then none
      else do
        let (body, after) ← textBody? steps rest
        return (.ofChar c :: body, after)

/-- The digits after a point, if there is one with digits after it, and what follows them. -/
def fractionPart (cs : List Char) : List Char × List Char :=
  match cs with
  | '.' :: rest =>
    match digitRun rest with
    | ([], _) => ([], cs)
    | (ds, tail) => (ds, tail)
  | _ => ([], cs)

/-- The exponent, if there is one with digits, and what follows it. -/
def exponentPart (cs : List Char) : Option Int × List Char :=
  match cs with
  | e :: rest =>
    if e = 'e' ∨ e = 'E' then
      let (negative, tail) := signRun rest
      match digitRun tail with
      | ([], _) => (none, cs)
      | (ds, after) => (some (if negative then -(digitsValue ds : Int) else digitsValue ds), after)
    else (none, cs)
  | [] => (none, cs)

/-- The whole part that the digits at the front of a number give, and what follows it. A zero at the front ends it. -/
def wholePart (run tail : List Char) : List Char × List Char :=
  match run with
  | '0' :: more => (['0'], more ++ tail)
  | ds => (ds, tail)

/-- A number without a sign at the front of a text, and what follows it. As in writing (`writeInt`), a whole number may
have any number of digits. -/
def unsigned? (negative : Bool) (cs : List Char) : Option (Number × List Char) :=
  let (run, tail) := digitRun cs
  let (whole, rest) := wholePart run tail
  if whole.isEmpty then none
  else
    let (fraction, rest) := fractionPart rest
    let (exponent, rest) := exponentPart rest
    if fraction.isEmpty && exponent.isNone then
      let n : Int := digitsValue whole
      some (.int (if negative then -n else n), rest)
    else
      let d : Decimal := ⟨negative, digitsValue (whole ++ fraction), exponent.getD 0 - fraction.length⟩
      some (.real d.toDouble, rest)

/-- What follows a word at the front of a text. -/
def after? (word : String) (cs : List Char) : Option (List Char) := word.toList.isPrefixOf? cs

/-- A name or a number at the front of a text, and what follows it. -/
def scalar? (cs : List Char) : Option (Json × List Char) :=
  match cs with
  | 'n' :: _ => (after? "null" cs).map (null, ·)
  | 't' :: _ => (after? "true" cs).map (bool true, ·)
  | 'f' :: _ => (after? "false" cs).map (bool false, ·)
  | 'N' :: _ => (after? "NaN" cs).map (number (.real .nan), ·)
  | 'I' :: _ => (after? "Infinity" cs).map (number (.real (.infinite false)), ·)
  | '-' :: 'I' :: _ => (after? "-Infinity" cs).map (number (.real (.infinite true)), ·)
  | '-' :: rest => (unsigned? true rest).map fun r => (number r.1, r.2)
  | _ => (unsigned? false cs).map fun r => (number r.1, r.2)

/-- Why a text has no value. -/
inductive Refusal where
  | malformed
  | tooDeep
  deriving DecidableEq, Repr

/-- What was read, if anything was. -/
def orMalformed {α : Type} : Option α → Except Refusal α
  | some a => .ok a
  | none => .error .malformed

mutual
/-- The value at the front of a text, and what follows it. Arrays and objects in it may be nested `nesting` deep. -/
def value : (steps nesting : Nat) → List Char → Except Refusal (Json × List Char)
  | 0, _, _ => .error .malformed
  | steps + 1, nesting, cs =>
    match cs with
    | '"' :: rest => orMalformed ((textBody? (rest.length + 1) rest).map fun r => (string r.1, r.2))
    | '[' :: rest =>
      match nesting, skipBlanks rest with
      | 0, _ => .error .tooDeep
      | _ + 1, ']' :: tail => .ok (array [], tail)
      | nesting + 1, tail => do
        let (vs, after) ← items steps nesting tail
        return (array vs, after)
    | '\x7b' :: rest =>
      match nesting, skipBlanks rest with
      | 0, _ => .error .tooDeep
      | _ + 1, '\x7d' :: tail => .ok (object [], tail)
      | nesting + 1, tail => do
        let (es, after) ← members steps nesting [] tail
        return (object es, after)
    | cs => orMalformed (scalar? cs)

/-- The items of an array up to its closing bracket, and what follows that. -/
def items : (steps nesting : Nat) → List Char → Except Refusal (List Json × List Char)
  | 0, _, _ => .error .malformed
  | steps + 1, nesting, cs => do
    let (v, rest) ← value steps nesting cs
    match skipBlanks rest with
    | ',' :: tail =>
      let (vs, after) ← items steps nesting (skipBlanks tail)
      return (v :: vs, after)
    | ']' :: tail => return ([v], tail)
    | _ => .error .malformed

/-- The members of an object, after those there are, up to its closing brace, and what follows that. -/
def members : (steps nesting : Nat) → Entries CodePoints Json → List Char →
    Except Refusal (Entries CodePoints Json × List Char)
  | 0, _, _, _ => .error .malformed
  | steps + 1, nesting, es, cs =>
    match cs with
    | '"' :: rest => do
      let (name, rest) ← orMalformed (textBody? (rest.length + 1) rest)
      match skipBlanks rest with
      | ':' :: tail =>
        let (v, rest) ← value steps nesting (skipBlanks tail)
        let es := es.put name v
        match skipBlanks rest with
        | ',' :: tail => members steps nesting es (skipBlanks tail)
        | '\x7d' :: tail => return (es, tail)
        | _ => .error .malformed
      | _ => .error .malformed
    | _ => .error .malformed
end

/-- The value that a text denotes, with arrays and objects nested `nesting` deep at most. -/
def read (nesting : Nat) (cs : List Char) : Except Refusal Json := do
  let (v, rest) ← value (2 * cs.length + 1) nesting (skipBlanks cs)
  if (skipBlanks rest).isEmpty then return v else .error .malformed

/-- The value that a text denotes. Within an array or an object others may be nested `nesting` deep. -/
def ofText (nesting : Nat) (cs : List Char) : Except Refusal Json := read (nesting + 1) cs

end Surd.Json
