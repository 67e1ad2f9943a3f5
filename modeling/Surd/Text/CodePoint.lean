/-!
# Code points

The numbers of Unicode up to U+10FFFF. Beside characters they count the halves of UTF-16 pairs, which are no
characters and stand alone only in texts that an escape has put together.
-/

namespace Surd

/-- A Unicode code point. -/
structure CodePoint where
  value : Nat
  inRange : value < 0x110000
  deriving DecidableEq

namespace CodePoint

/-- The code point of a character. -/
def ofChar (c : Char) : CodePoint where
  value := c.toNat
  inRange := by
    have h : c.toNat < 0xD800 ∨ (0xDFFF < c.toNat ∧ c.toNat < 0x110000) := c.valid
    omega

/-- The character of a code point; half a pair has none. -/
def char? (p : CodePoint) : Option Char := if p.value.isValidChar then some (.ofNat p.value) else none

@[simp] theorem char?_ofChar (c : Char) : (ofChar c).char? = some c := by
  simp only [char?, ofChar, Char.ofNat_toNat]
  exact if_pos c.valid

end CodePoint

/-- A text in which halves of pairs may stand alone. -/
abbrev CodePoints := List CodePoint

/-- The code points of a text. -/
def codePoints (s : String) : CodePoints := s.toList.map CodePoint.ofChar

namespace CodePoints

/-- The text with these code points; there is none where half a pair stands alone. -/
def text? (ps : CodePoints) : Option String := (ps.mapM CodePoint.char?).map String.ofList

/-- The text with these code points, with the replacement character for half a pair. -/
def shown (ps : CodePoints) : String :=
  String.ofList (ps.map fun p => p.char?.getD (Char.ofNat 0xFFFD))

end CodePoints

end Surd
