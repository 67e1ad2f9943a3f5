/-!
# UTF-8

Bytes are decoded to characters; a byte sequence that cannot be part of a well-formed text is a gap, as long as the
longest start of a character it is. A text is well formed when there are no gaps; to be shown all the same, each gap
becomes the replacement character.
-/

namespace Surd.Utf8

/-- What may follow a first byte: how many bytes, and the range of the first of them. Overlong forms, surrogates
and numbers above U+10FFFF are excluded by that range. -/
def tail? (b : Nat) : Option (Nat × Nat × Nat) :=
  if b < 0x80 then some (0, 0x80, 0xBF)
  else if b < 0xC2 then none
  else if b < 0xE0 then some (1, 0x80, 0xBF)
  else if b = 0xE0 then some (2, 0xA0, 0xBF)
  else if b = 0xED then some (2, 0x80, 0x9F)
  else if b < 0xF0 then some (2, 0x80, 0xBF)
  else if b = 0xF0 then some (3, 0x90, 0xBF)
  else if b < 0xF4 then some (3, 0x80, 0xBF)
  else if b = 0xF4 then some (3, 0x80, 0x8F)
  else none

/-- The bits that a first byte with `count` bytes after it gives to the character. -/
def leadBits (count b : Nat) : Nat :=
  match count with
  | 0 => b
  | 1 => b - 0xC0
  | 2 => b - 0xE0
  | _ => b - 0xF0

/-- The bytes after the first one, up to `count` of them, the next in a range and the others from 0x80 to 0xBF:
the character's number if all are there, and how many there are. -/
def continuation (acc : Nat) : (count low high : Nat) → List Nat → Option Nat × Nat
  | 0, _, _, _ => (some acc, 0)
  | _ + 1, _, _, [] => (none, 0)
  | count + 1, low, high, b :: rest =>
    if low ≤ b ∧ b ≤ high then
      let r := continuation (acc * 64 + (b - 0x80)) count 0x80 0xBF rest
      (r.1, r.2 + 1)
    else (none, 0)

/-- The characters of a byte sequence, with nothing for each gap. -/
def decode : List Nat → List (Option Char)
  | [] => []
  | b :: rest =>
    match tail? b with
    | none => none :: decode rest
    | some (count, low, high) =>
      let r := continuation (leadBits count b) count low high rest
      r.1.map Char.ofNat :: decode (rest.drop r.2)
termination_by bs => bs.length
decreasing_by
  · simp
  · simp only [List.length_drop, List.length_cons]; omega

/-- The text of a well-formed byte sequence. -/
def ofBytes? (bytes : List Nat) : Option String := ((decode bytes).mapM id).map String.ofList

/-- The text of a byte sequence with the replacement character for each gap. -/
def ofBytes (bytes : List Nat) : String :=
  String.ofList ((decode bytes).map fun c => c.getD (Char.ofNat 0xFFFD))

end Surd.Utf8
