import Surd.Text.CodePoint
import Surd.Text.Utf8
import Mathlib.Data.List.Basic

/-!
# The bytes that are UTF-8

A byte sequence decodes without a gap exactly if it is the encoding of a text, and then to that text
(`ofBytes?_eq_some_iff`). Encoding is the standard library's own; decoding knows only the ranges that a first and a
second byte may have, and the two are compared class by class of the length of a character's encoding.
-/

namespace Surd.Utf8

/-- The bytes of a character. -/
def units (c : Char) : List Nat := (String.utf8EncodeChar c).map UInt8.toNat

/-- The bytes of a text. -/
def encode (cs : List Char) : List Nat := cs.flatMap units

variable {c : Char} {cs : List Char} {bytes rest : List Nat} {b acc count low high n : Nat}

theorem valid_toNat (c : Char) : c.toNat < 0xD800 ∨ 0xDFFF < c.toNat ∧ c.toNat < 0x110000 := c.valid

theorem units_eq (c : Char) : units c =
    if c.toNat < 0x80 then [c.toNat]
    else if c.toNat < 0x800 then [0xC0 + c.toNat / 64, 0x80 + c.toNat % 64]
    else if c.toNat < 0x10000 then [0xE0 + c.toNat / 4096, 0x80 + c.toNat / 64 % 64, 0x80 + c.toNat % 64]
    else [0xF0 + c.toNat / 262144, 0x80 + c.toNat / 4096 % 64, 0x80 + c.toNat / 64 % 64, 0x80 + c.toNat % 64] := by
  have valid := valid_toNat c
  have code : c.val.toNat = c.toNat := rfl
  rw [units, String.utf8EncodeChar, code]
  split_ifs <;> simp <;> omega

/-! ## Continuation bytes -/

@[simp] theorem leadBits_zero (b : Nat) : leadBits 0 b = b := rfl

@[simp] theorem leadBits_one (b : Nat) : leadBits 1 b = b - 0xC0 := rfl

@[simp] theorem leadBits_two (b : Nat) : leadBits 2 b = b - 0xE0 := rfl

@[simp] theorem leadBits_three (b : Nat) : leadBits 3 b = b - 0xF0 := rfl

theorem continuation_zero (low high : Nat) (bytes : List Nat) : continuation acc 0 low high bytes = (some acc, 0) := by
  rw [continuation]

theorem continuation_cons (hb : low ≤ b ∧ b ≤ high) :
    continuation acc (count + 1) low high (b :: rest) =
      ((continuation (acc * 64 + (b - 0x80)) count 0x80 0xBF rest).1,
        (continuation (acc * 64 + (b - 0x80)) count 0x80 0xBF rest).2 + 1) := by
  rw [continuation, if_pos hb]

/-- A character's number is there only if its next byte is. -/
theorem exists_of_continuation (h : (continuation acc (count + 1) low high bytes).1 = some n) :
    ∃ b rest, bytes = b :: rest ∧ (low ≤ b ∧ b ≤ high) ∧
      (continuation (acc * 64 + (b - 0x80)) count 0x80 0xBF rest).1 = some n := by
  cases bytes with
  | nil => cases h
  | cons b rest =>
      by_cases hb : low ≤ b ∧ b ≤ high
      · rw [continuation_cons hb] at h
        exact ⟨b, rest, rfl, hb, h⟩
      · rw [continuation, if_neg hb] at h
        cases h

/-! ## One character -/

/-- The first bytes, class by class of the length of the encoding. -/
theorem tail?_eq (b : Nat) : tail? b =
    if b < 0x80 then some (0, 0x80, 0xBF)
    else if b < 0xC2 then none
    else if b < 0xE0 then some (1, 0x80, 0xBF)
    else if b < 0xF0 then some (2, if b = 0xE0 then 0xA0 else 0x80, if b = 0xED then 0x9F else 0xBF)
    else if b < 0xF5 then some (3, if b = 0xF0 then 0x90 else 0x80, if b = 0xF4 then 0x8F else 0xBF)
    else none := by
  unfold tail?
  split_ifs <;> first | rfl | omega

theorem decode_cons_of_continuation (ht : tail? b = some (count, low, high))
    (hc : continuation (leadBits count b) count low high bytes = (some n, count)) (hr : bytes.drop count = rest) :
    decode (b :: bytes) = some (Char.ofNat n) :: decode rest := by
  simp [decode, ht, hc, hr]

theorem decode_units_append (c : Char) (rest : List Nat) : decode (units c ++ rest) = some c :: decode rest := by
  have valid := valid_toNat c
  rw [units_eq]
  generalize hn : c.toNat = n at valid ⊢
  have read : some c = some (Char.ofNat n) := by rw [← hn, Char.ofNat_toNat]
  rw [read]
  split_ifs with h1 h2 h3 <;> simp only [List.cons_append, List.nil_append]
  · have tail := tail?_eq n
    rw [if_pos h1] at tail
    refine decode_cons_of_continuation tail ?_ rfl
    simp [continuation_zero]
  · have tail := tail?_eq (0xC0 + n / 64)
    rw [if_neg (by omega), if_neg (by omega), if_pos (by omega)] at tail
    refine decode_cons_of_continuation tail ?_ rfl
    rw [continuation_cons, continuation_zero]
    · simp
      omega
    · omega
  · have tail := tail?_eq (0xE0 + n / 4096)
    rw [if_neg (by omega), if_neg (by omega), if_neg (by omega), if_pos (by omega)] at tail
    refine decode_cons_of_continuation tail ?_ rfl
    rw [continuation_cons, continuation_cons, continuation_zero]
    · simp
      omega
    · omega
    · split_ifs <;> omega
  · have tail := tail?_eq (0xF0 + n / 262144)
    rw [if_neg (by omega), if_neg (by omega), if_neg (by omega), if_neg (by omega), if_pos (by omega)] at tail
    refine decode_cons_of_continuation tail ?_ rfl
    rw [continuation_cons, continuation_cons, continuation_cons, continuation_zero]
    · simp
      omega
    · omega
    · omega
    · split_ifs <;> omega

theorem units_ofNat (hn : n.isValidChar) : units (Char.ofNat n) =
    if n < 0x80 then [n]
    else if n < 0x800 then [0xC0 + n / 64, 0x80 + n % 64]
    else if n < 0x10000 then [0xE0 + n / 4096, 0x80 + n / 64 % 64, 0x80 + n % 64]
    else [0xF0 + n / 262144, 0x80 + n / 4096 % 64, 0x80 + n / 64 % 64, 0x80 + n % 64] := by
  have code : (Char.ofNat n).toNat = n := by rw [Char.ofNat, dif_pos hn]; rfl
  rw [units_eq, code]

/-- The classes of first bytes, with what the range of the second byte excludes: overlong forms, surrogates and
numbers above U+10FFFF. -/
theorem tail?_cases (ht : tail? b = some (count, low, high)) :
    (b < 0x80 ∧ count = 0) ∨
    (0xC2 ≤ b ∧ b < 0xE0 ∧ count = 1 ∧ 0x80 ≤ low ∧ high ≤ 0xBF) ∨
    (0xE0 ≤ b ∧ b < 0xF0 ∧ count = 2 ∧ (0x80 ≤ low ∧ high ≤ 0xBF) ∧ (b = 0xE0 → 0xA0 ≤ low) ∧
      (b = 0xED → high ≤ 0x9F)) ∨
    (0xF0 ≤ b ∧ b < 0xF5 ∧ count = 3 ∧ (0x80 ≤ low ∧ high ≤ 0xBF) ∧ (b = 0xF0 → 0x90 ≤ low) ∧
      (b = 0xF4 → high ≤ 0x8F)) := by
  rw [tail?_eq] at ht
  split_ifs at ht <;> cases ht <;> omega

/-- A first byte with its continuation is the encoding of a character. -/
theorem exists_units_of_continuation (ht : tail? b = some (count, low, high))
    (hc : (continuation (leadBits count b) count low high bytes).1 = some n) :
    ∃ rest, b :: bytes = units (Char.ofNat n) ++ rest := by
  obtain ⟨hb, rfl⟩ | ⟨hb, hb', rfl, hl, hh⟩ | ⟨hb, hb', rfl, hr, hl, hh⟩ | ⟨hb, hb', rfl, hr, hl, hh⟩ :=
    tail?_cases ht
  · obtain rfl : b = n := by simpa [continuation_zero] using hc
    exact ⟨bytes, by rw [units_ofNat (Or.inl (by omega)), if_pos hb]; rfl⟩
  · obtain ⟨x, bytes, rfl, hx, hc⟩ := exists_of_continuation hc
    have number : (b - 0xC0) * 64 + (x - 0x80) = n := by simpa [continuation_zero] using hc
    refine ⟨bytes, ?_⟩
    rw [units_ofNat (Or.inl (by omega)), if_neg (by omega), if_pos (by omega)]
    simp
    omega
  · obtain ⟨x, bytes, rfl, hx, hc⟩ := exists_of_continuation hc
    obtain ⟨y, bytes, rfl, hy, hc⟩ := exists_of_continuation hc
    have number : ((b - 0xE0) * 64 + (x - 0x80)) * 64 + (y - 0x80) = n := by simpa [continuation_zero] using hc
    have valid : n.isValidChar := by unfold Nat.isValidChar; omega
    refine ⟨bytes, ?_⟩
    rw [units_ofNat valid, if_neg (by omega), if_neg (by omega), if_pos (by omega)]
    simp
    omega
  · obtain ⟨x, bytes, rfl, hx, hc⟩ := exists_of_continuation hc
    obtain ⟨y, bytes, rfl, hy, hc⟩ := exists_of_continuation hc
    obtain ⟨z, bytes, rfl, hz, hc⟩ := exists_of_continuation hc
    have number : (((b - 0xF0) * 64 + (x - 0x80)) * 64 + (y - 0x80)) * 64 + (z - 0x80) = n := by
      simpa [continuation_zero] using hc
    have valid : n.isValidChar := by unfold Nat.isValidChar; omega
    refine ⟨bytes, ?_⟩
    rw [units_ofNat valid, if_neg (by omega), if_neg (by omega), if_neg (by omega)]
    simp
    omega

/-- What decodes to a character first starts with the bytes of that character. -/
theorem exists_of_decode_cons {os : List (Option Char)} (h : decode bytes = some c :: os) :
    ∃ rest, bytes = units c ++ rest ∧ decode rest = os := by
  suffices ∃ rest, bytes = units c ++ rest by
    obtain ⟨rest, rfl⟩ := this
    rw [decode_units_append] at h
    exact ⟨rest, rfl, (List.cons.inj h).2⟩
  cases bytes with
  | nil => simp [decode] at h
  | cons b rest =>
      cases ht : tail? b with
      | none => simp [decode, ht] at h
      | some t =>
          rw [decode, ht] at h
          obtain ⟨n, hn, rfl⟩ := Option.map_eq_some_iff.mp (List.cons.inj h).1
          exact exists_units_of_continuation ht hn

/-! ## Texts -/

theorem decode_encode (cs : List Char) : decode (encode cs) = cs.map some := by
  induction cs with
  | nil => simp [encode, decode]
  | cons c cs ih => simpa [encode, decode_units_append] using ih

theorem eq_encode_of_decode (h : decode bytes = cs.map some) : bytes = encode cs := by
  induction cs generalizing bytes with
  | nil =>
      cases bytes with
      | nil => rfl
      | cons b rest => cases ht : tail? b <;> simp [decode, ht] at h
  | cons c cs ih =>
      obtain ⟨rest, rfl, hr⟩ := exists_of_decode_cons h
      simp [encode, ih hr]

/-- There are no gaps exactly if every place holds a character. -/
theorem mapM_id_eq_some_iff {os : List (Option Char)} : os.mapM id = some cs ↔ os = cs.map some := by
  induction os generalizing cs with
  | nil => cases cs <;> simp
  | cons o os ih =>
      cases o with
      | none => cases cs <;> simp [List.mapM_cons]
      | some c => cases cs <;> simp [List.mapM_cons, Option.bind_eq_some_iff, ih, and_comm]

theorem ofBytes?_eq_some_iff {s : String} : ofBytes? bytes = some s ↔ bytes = encode s.toList := by
  constructor
  · intro h
    obtain ⟨cs, hc, rfl⟩ := Option.map_eq_some_iff.mp h
    simpa using eq_encode_of_decode (mapM_id_eq_some_iff.mp hc)
  · rintro rfl
    have whole : (decode (encode s.toList)).mapM id = some s.toList := mapM_id_eq_some_iff.mpr (decode_encode _)
    simp [ofBytes?, whole]

end Surd.Utf8
