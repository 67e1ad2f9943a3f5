import Surd.Json.Reader
import Surd.Json.Writer
import Mathlib.Data.List.Basic
import Mathlib.Tactic.IntervalCases

/-!
# Texts in JSON

A text in quotes is read back if the two halves of a UTF-16 pair never stand side by side in it: they would be read as
the character that they make up. No text that is read has such a pair (`joined_of_textBody?`), and all others are read
back from what is written for them (`textBody?_quote`).
-/

namespace Surd.Json

variable {s : CodePoints} {p : CodePoint} {c e : Char} {n steps : Nat} {cs tail after rest : List Char}

/-- No first half of a pair has the second half behind it. -/
def Joined : CodePoints → Prop
  | [] => True
  | p :: rest => (isHighUnit p.value = true → ∀ q ∈ rest.head?, isLowUnit q.value = false) ∧ Joined rest

instance decidableJoined : (s : CodePoints) → Decidable (Joined s)
  | [] => isTrue trivial
  | _ :: rest => @instDecidableAnd _ _ inferInstance (decidableJoined rest)

/-! ## Code points and units -/

theorem ofChar_of_char? (h : p.char? = some c) : p = .ofChar c := by
  rw [CodePoint.char?] at h
  obtain ⟨valid, same⟩ := Option.ite_none_right_eq_some.mp h
  obtain rfl := Option.some.inj same
  have value : (Char.ofNat p.value).toNat = p.value := by
    rw [Char.ofNat, dif_pos valid]
    rfl
  rw [CodePoint.mk.injEq]
  exact value.symm

theorem isHighUnit_iff : isHighUnit n = true ↔ 0xD800 ≤ n ∧ n < 0xDC00 := by
  rw [isHighUnit, Bool.and_eq_true, decide_eq_true_eq, decide_eq_true_eq]

theorem isLowUnit_iff : isLowUnit n = true ↔ 0xDC00 ≤ n ∧ n < 0xE000 := by
  rw [isLowUnit, Bool.and_eq_true, decide_eq_true_eq, decide_eq_true_eq]

theorem not_half_ofChar (c : Char) :
    isHighUnit (CodePoint.ofChar c).value = false ∧ isLowUnit (CodePoint.ofChar c).value = false := by
  have valid : c.toNat < 0xD800 ∨ (0xDFFF < c.toNat ∧ c.toNat < 0x110000) := c.valid
  rw [← Bool.not_eq_true, ← Bool.not_eq_true, isHighUnit_iff, isLowUnit_iff]
  simp only [CodePoint.ofChar]
  omega

theorem pointOf_value (p : CodePoint) : pointOf p.value = p := dif_pos p.inRange

theorem value_pointOf (n : Nat) : (pointOf n).value = n ∨ (pointOf n).value = 0xFFFD := by
  rw [pointOf]
  split
  · exact .inl rfl
  · exact .inr rfl

theorem joined_codePoints (cs : List Char) : Joined (cs.map CodePoint.ofChar) := by
  induction cs with
  | nil => trivial
  | cons c cs ih => exact ⟨fun high => absurd high (by rw [(not_half_ofChar c).1]; decide), ih⟩

/-! ## Escapes -/

theorem hexValue?_digitChar : ∀ d < 16, hexValue? (Nat.digitChar d) = some d := by decide

theorem unit?_hexText (h : n < 0x10000) (rest : List Char) : unit? (hexText 4 n ++ rest) = some (n, rest) := by
  have digit : ∀ k, hexValue? (hexDigit k) = some (k % 16) := fun k => hexValue?_digitChar _ (Nat.mod_lt _ (by decide))
  show unit? (hexDigit (n / 16 / 16 / 16) :: hexDigit (n / 16 / 16) :: hexDigit (n / 16) :: hexDigit n :: rest) = _
  have value : ((n / 16 / 16 / 16 % 16 * 16 + n / 16 / 16 % 16) * 16 + n / 16 % 16) * 16 + n % 16 = n := by omega
  simp only [unit?, digit]
  exact congrArg (fun n => some (n, rest)) value

/-- The ways in which a code point is written inside quotes. -/
inductive Escaped : CodePoint → List Char → Prop
  | short {c e : Char} (h : shortEscape? e = some c) : Escaped (.ofChar c) ['\\', e]
  | plain {c : Char} (quote : c ≠ '"') (backslash : c ≠ '\\') (control : 32 ≤ c.toNat) : Escaped (.ofChar c) [c]
  | unit {p : CodePoint} (h : p.value < 0x10000) : Escaped p (escapeUnit p.value)
  | pair {p : CodePoint} {n : Nat} (h : n < 0x100000) (value : p.value = 0x10000 + n) :
      Escaped p (escapeUnit (0xD800 + n / 0x400) ++ escapeUnit (0xDC00 + n % 0x400))

theorem escaped_escapeChar (c : Char) : Escaped (.ofChar c) (escapeChar c) := by
  rw [escapeChar]
  split_ifs with quote backslash _ _ _ _ _ printable small
  iterate 7
    · subst c
      exact .short rfl
  · exact .plain quote backslash printable.1
  · exact .unit small
  · have valid := (CodePoint.ofChar c).inRange
    have value : (CodePoint.ofChar c).value = c.toNat := rfl
    exact .pair (by omega) (by omega)

theorem escaped_escapePoint (p : CodePoint) : Escaped p (escapePoint p) := by
  rw [escapePoint]
  split
  · rename_i c h
    rw [ofChar_of_char? h]
    exact escaped_escapeChar c
  · rename_i h
    rw [CodePoint.char?, ite_eq_right_iff] at h
    have half : ¬p.value.isValidChar := fun valid => Option.some_ne_none _ (h valid)
    have range := p.inRange
    rw [Nat.isValidChar] at half
    exact .unit (by omega)

/-- The text does not start with the escape of the second half of a pair. -/
def StartsNoLow (cs : List Char) : Prop :=
  ∀ tail, cs = '\\' :: 'u' :: tail → ∃ n after, unit? tail = some (n, after) ∧ isLowUnit n = false

theorem escapedPoint?_unit (h : p.value < 0x10000) (half : isHighUnit p.value = true → StartsNoLow tail) :
    escapedPoint? (hexText 4 p.value ++ tail) = some (p, tail) := by
  rw [escapedPoint?, unit?_hexText h]
  by_cases high : isHighUnit p.value = true
  · have alone := half high
    show (if isHighUnit p.value = true then _ else _) = _
    rw [if_pos high]
    split
    · rename_i tail
      obtain ⟨low, after, read, no_low⟩ := alone tail rfl
      rw [read]
      show (if isLowUnit low = true then _ else _) = _
      rw [no_low, pointOf_value]
      rfl
    · rw [pointOf_value]
      rfl
  · show (if isHighUnit p.value = true then _ else _) = _
    rw [if_neg high, pointOf_value]
    rfl

theorem escapedPoint?_pair (h : n < 0x100000) (value : p.value = 0x10000 + n) (tail : List Char) :
    escapedPoint? (hexText 4 (0xD800 + n / 0x400) ++ (escapeUnit (0xDC00 + n % 0x400) ++ tail)) = some (p, tail) := by
  have high : isHighUnit (0xD800 + n / 0x400) = true := isHighUnit_iff.mpr (by omega)
  have low : isLowUnit (0xDC00 + n % 0x400) = true := isLowUnit_iff.mpr (by omega)
  have joined : 0x10000 + (0xD800 + n / 0x400 - 0xD800) * 0x400 + (0xDC00 + n % 0x400 - 0xDC00) = p.value := by omega
  rw [escapedPoint?, unit?_hexText (by omega)]
  show (if isHighUnit _ = true then _ else _) = _
  rw [if_pos high]
  show (unit? (hexText 4 (0xDC00 + n % 0x400) ++ tail) >>= _) = _
  rw [unit?_hexText (by omega)]
  show (if isLowUnit _ = true then _ else _) = _
  rw [if_pos low, joined, pointOf_value]
  rfl

theorem textBody?_unicode {body : CodePoints} (point : escapedPoint? cs = some (p, tail))
    (read : textBody? steps tail = some (body, after)) :
    textBody? (steps + 1) ('\\' :: 'u' :: cs) = some (p :: body, after) := by
  rw [textBody?, point]
  show (textBody? steps tail >>= _) = _
  rw [read]
  rfl

/-- One code point more is read. -/
theorem textBody?_escaped {body : CodePoints} (h : Escaped p cs) (half : isHighUnit p.value = true → StartsNoLow tail)
    (read : textBody? steps tail = some (body, after)) :
    textBody? (steps + 1) (cs ++ tail) = some (p :: body, after) := by
  cases h with
  | @short c e stands =>
      have letter : e ≠ 'u' := by
        rintro rfl
        cases stands
      show textBody? (steps + 1) ('\\' :: e :: tail) = _
      rw [textBody?, stands]
      · show (textBody? steps tail >>= _) = _
        rw [read]
        rfl
      · exact letter
  | @plain c quote backslash control =>
      show textBody? (steps + 1) (c :: tail) = _
      rw [textBody?, if_neg, read]
      · rfl
      · exact not_or.mpr ⟨backslash, not_lt.mpr control⟩
      · exact quote
      · exact fun _ h _ => backslash h
      · exact fun _ _ h _ => backslash h
  | unit small =>
      exact textBody?_unicode (escapedPoint?_unit small half) read
  | pair small value =>
      rw [List.append_assoc]
      exact textBody?_unicode (escapedPoint?_pair small value tail) read

theorem Escaped.length_pos (h : Escaped p cs) : 0 < cs.length := by
  cases h <;> exact Nat.succ_pos _

theorem Escaped.startsNoLow (h : Escaped p cs) (half : isLowUnit p.value = false) (tail : List Char) :
    StartsNoLow (cs ++ tail) := by
  cases h with
  | short stands =>
      rintro _ ⟨⟩
      cases stands
  | plain _ backslash _ =>
      rintro _ ⟨⟩
      exact absurd rfl backslash
  | unit small =>
      rintro _ ⟨⟩
      exact ⟨_, _, unit?_hexText small tail, half⟩
  | @pair n small value =>
      rintro _ ⟨⟩
      refine ⟨_, _, unit?_hexText (by omega) _, ?_⟩
      rw [← Bool.not_eq_true, isLowUnit_iff]
      omega

/-! ## What is written is read -/

/-- A text without split pairs is read back from its escapes. -/
theorem textBody?_quoted (h : Joined s) (rest : List Char) (enough : (s.flatMap escapePoint).length < steps) :
    textBody? steps (s.flatMap escapePoint ++ '"' :: rest) = some (s, rest) := by
  induction s generalizing steps with
  | nil =>
      obtain ⟨k, rfl⟩ := Nat.exists_eq_succ_of_ne_zero (Nat.ne_of_gt enough)
      rfl
  | cons p s ih =>
      obtain ⟨half, joined⟩ := h
      have written := escaped_escapePoint p
      have progress := written.length_pos
      rw [List.flatMap_cons, List.length_append] at enough
      obtain ⟨k, rfl⟩ := Nat.exists_eq_succ_of_ne_zero (Nat.ne_of_gt (Nat.zero_lt_of_lt enough))
      rw [List.flatMap_cons, List.append_assoc]
      refine textBody?_escaped written (fun high => ?_) (ih joined (by omega))
      cases s with
      | nil => rintro _ ⟨⟩
      | cons q s =>
          rw [List.flatMap_cons, List.append_assoc]
          exact (escaped_escapePoint q).startsNoLow (half high q rfl) _

/-! ## What is read can be written -/

theorem isHighUnit_of_pointOf (h : isHighUnit (pointOf n).value = true) : isHighUnit n = true := by
  obtain same | other := value_pointOf n
  · exact same ▸ h
  · rw [other] at h
    cases h

theorem isLowUnit_of_pointOf (h : isLowUnit (pointOf n).value = true) : isLowUnit n = true := by
  obtain same | other := value_pointOf n
  · exact same ▸ h
  · rw [other] at h
    cases h

theorem not_isLowUnit (h : isHighUnit n = true) : isLowUnit n ≠ true := by
  rw [isHighUnit_iff] at h
  rw [Ne, isLowUnit_iff]
  omega

/-- A first half that is read has no second half behind it, and a second half was not preceded by a first one. -/
theorem halves_of_escapedPoint? (h : escapedPoint? cs = some (p, tail)) :
    (isHighUnit p.value = true → StartsNoLow tail) ∧ (isLowUnit p.value = true → ¬StartsNoLow ('\\' :: 'u' :: cs)) := by
  rw [escapedPoint?] at h
  obtain ⟨⟨first, rest⟩, unit, h⟩ := Option.bind_eq_some_iff.mp h
  dsimp only at h
  by_cases high : isHighUnit first = true
  · have no_low : isLowUnit (pointOf first).value = true → ¬StartsNoLow ('\\' :: 'u' :: cs) := fun low =>
      absurd (isLowUnit_of_pointOf low) (not_isLowUnit high)
    rw [if_pos high] at h
    split at h
    · obtain ⟨⟨second, behind⟩, unit', h⟩ := Option.bind_eq_some_iff.mp h
      dsimp only at h
      by_cases low : isLowUnit second = true
      · rw [if_pos low] at h
        have character := congrArg Prod.fst (Option.some.inj h)
        dsimp only at character
        rw [← character]
        constructor
        · intro half
          have := isHighUnit_iff.mp (isHighUnit_of_pointOf half)
          omega
        · intro half
          have := isLowUnit_iff.mp (isLowUnit_of_pointOf half)
          omega
      · rw [if_neg low] at h
        obtain ⟨rfl, rfl⟩ := Option.some.inj h
        refine ⟨fun _ => ?_, no_low⟩
        rintro _ ⟨⟩
        exact ⟨second, behind, unit', Bool.not_eq_true _ ▸ low⟩
    · rename_i alone
      obtain ⟨rfl, rfl⟩ := Option.some.inj h
      exact ⟨fun _ tail starts => absurd starts (alone tail), no_low⟩
  · rw [if_neg high] at h
    obtain ⟨rfl, rfl⟩ := Option.some.inj h
    refine ⟨fun half => absurd (isHighUnit_of_pointOf half) high, fun half no_low => ?_⟩
    obtain ⟨n, _, again, other⟩ := no_low cs rfl
    obtain ⟨rfl, _⟩ := Option.some.inj (again.symm.trans unit)
    exact Bool.false_ne_true (other.symm.trans (isLowUnit_of_pointOf half))

/-- In a text that is read the halves of a pair are joined, and one that starts with a second half starts with its
escape. -/
theorem joined_of_textBody? (h : textBody? steps cs = some (s, after)) :
    Joined s ∧ ∀ p ∈ s.head?, isLowUnit p.value = true → ¬StartsNoLow cs := by
  induction steps generalizing cs s after with
  | zero => cases h
  | succ steps ih =>
      have plain {c : Char} {cs' : List Char}
          (h : (textBody? steps cs' >>= fun r => some (CodePoint.ofChar c :: r.1, r.2)) = some (s, after)) :
          Joined s ∧ ∀ p ∈ s.head?, isLowUnit p.value = true → ¬StartsNoLow cs := by
        obtain ⟨⟨body, _⟩, read, h⟩ := Option.bind_eq_some_iff.mp h
        obtain ⟨rfl, rfl⟩ := Option.some.inj h
        obtain ⟨no_high, no_low⟩ := not_half_ofChar c
        refine ⟨⟨fun high => absurd high (ne_true_of_eq_false no_high), (ih read).1⟩, ?_⟩
        rintro _ ⟨⟩ low
        exact absurd low (ne_true_of_eq_false no_low)
      unfold textBody? at h
      split at h
      · cases h
      · obtain ⟨rfl, rfl⟩ := Option.some.inj h
        exact ⟨trivial, by rintro _ ⟨⟩⟩
      · obtain ⟨⟨p, tail⟩, point, h⟩ := Option.bind_eq_some_iff.mp h
        obtain ⟨⟨body, _⟩, read, h⟩ := Option.bind_eq_some_iff.mp h
        obtain ⟨rfl, rfl⟩ := Option.some.inj h
        obtain ⟨high, low⟩ := halves_of_escapedPoint? point
        obtain ⟨joined, first⟩ := ih read
        refine ⟨⟨fun half q hq => ?_, joined⟩, ?_⟩
        · by_contra second
          exact first q hq (Bool.not_eq_false _ ▸ second) (high half)
        · rintro _ ⟨⟩
          exact low
      · obtain ⟨c, _, h⟩ := Option.bind_eq_some_iff.mp h
        exact plain h
      · split at h
        · cases h
        · exact plain h

end Surd.Json
