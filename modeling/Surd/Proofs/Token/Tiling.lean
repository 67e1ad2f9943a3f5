import Surd.Proofs.Token.Lexed

/-!
# Tokens tile their text

Every token stands in the text where its position says, with the characters it is written with. The tokens follow each
other without overlap, no character of one is blank, and what lies between them is blank. A minus sign is a negation at
the start and after an operator or an opening parenthesis (`Tiles`).

A text has such tokens, or the first character at which no token can start is reported (`ofText_tiles`). The text in
front of this character has tokens.

Both are read off the rules of `Scanned`: a text that is read can be parted at each of its tokens (`Scanned.part`), and
where the scanner stops, what it has read by then is a text of its own (`exists_of_scan_eq_error`).
-/

namespace Surd

variable {last : Option Lexeme} {cs : List Char} {ts before after : List Token} {t : Token} {p : Problem}
  {position : Nat}

namespace Token

/-- The characters that a token is written with. -/
def written (t : Token) : List Char := t.lexeme.source.toList

/-- The position behind the last character of a token. -/
def stop (t : Token) : Nat := t.position + t.written.length

/-- The token covers a position of the text. -/
def Covers (t : Token) (n : Nat) : Prop := t.position ≤ n ∧ n < t.stop

/-- The tokens tile the text. -/
structure Tiles (cs : List Char) (ts : List Token) : Prop where
  /-- The text has the characters of a token at its position. -/
  placed : ∀ t ∈ ts, (cs.drop t.position).take t.written.length = t.written
  increasing : ts.Pairwise fun t u => t.position < u.position
  apart : ts.Pairwise fun t u => t.stop ≤ u.position
  filled : ∀ t ∈ ts, t.written ≠ []
  solid : ∀ t ∈ ts, ∀ c ∈ t.written, isBlank c = false
  blank : ∀ n c, cs[n]? = some c → (∀ t ∈ ts, ¬t.Covers n) → isBlank c = true
  /-- A minus sign is a negation or a subtraction. -/
  minus : ∀ before t after, ts = before ++ t :: after → t.written = ['-'] →
    (t.lexeme = .negation ∨ t.lexeme = .binary .sub) ∧
    (t.lexeme = .negation ↔
      ∀ u ∈ before.getLast?, u.lexeme.isOperator = true ∨ u.lexeme.isOpening = true)

/-- No token can start at this position of the text, although the text in front of it has tokens and the character there
is not blank. -/
structure Stuck (cs : List Char) (c : Char) (n : Nat) : Prop where
  there : cs[n]? = some c
  before : ∃ ts, ofText (cs.take n) = .ok ts
  blank : isBlank c = false
  letter : isLetter c = false
  digit : isDigit c = false
  symbol : c ∉ ['+', '-', '*', '/', '^', '(', ')', ',']
  point : c = '.' → ∀ d, cs[n + 1]? = some d → isDigit d = false

end Token

open Token (Tiles Stuck)

namespace Scanned

/-! ## Parting a text -/

/-- The token in front of the rest: the last one of a list, or the one in front of the list. -/
def lastOf (last : Option Lexeme) (ts : List Token) : Option Lexeme := (ts.getLast?.map Token.lexeme).or last

/-- A text that is read is parted at each of its tokens: the text in front of it, the token, and the text behind it. -/
theorem part (h : Scanned position last cs (before ++ t :: after)) :
    ∃ front back, cs = front ++ (t.written ++ back) ∧ t.position = position + front.length ∧
      Scanned position last front before ∧ Reads (lastOf last before) back t.written t.lexeme ∧
      Scanned t.stop (some t.lexeme) back after := by
  generalize parts : before ++ t :: after = ts at h
  induction h using Scanned.tokenwise generalizing before with
  | nil => simp at parts
  | @blank position _ c _ _ blank _ ih =>
      obtain ⟨front, back, rfl, there, first, read, more⟩ := ih parts
      refine ⟨c :: front, back, rfl, ?_, .blank blank first, read, more⟩
      rw [there, List.length_cons]
      omega
  | @token position last w rest l ts read more ih =>
      cases before with
      | nil =>
          obtain ⟨rfl, rfl⟩ := List.cons.inj parts
          have written : Token.written ⟨l, position⟩ = w := read.source
          refine ⟨[], rest, ?_, rfl, .nil, ?_, ?_⟩
          · rw [written, List.nil_append]
          · rwa [written]
          · rwa [Token.stop, written]
      | cons first before =>
          obtain ⟨rfl, tail⟩ := List.cons.inj parts
          obtain ⟨front, back, rfl, there, scanned, reads, later⟩ := ih tail
          refine ⟨w ++ front, back, (List.append_assoc _ _ _).symm, ?_, .token read.of_append scanned, ?_, later⟩
          · rw [there, List.length_append, Nat.add_assoc]
          · have same : lastOf (some l) before = lastOf last (⟨l, position⟩ :: before) := by
              cases before with
              | nil => rfl
              | cons => simp [lastOf, List.getLast?_cons]
            rwa [← same]

/-- The same for a token of which only the place in the text matters. -/
theorem exists_part (h : Scanned position last cs ts) (ht : t ∈ ts) :
    ∃ front back, cs = front ++ (t.written ++ back) ∧ t.position = position + front.length ∧
      ∃ last, Reads last back t.written t.lexeme := by
  obtain ⟨before, after, rfl⟩ := List.append_of_mem ht
  obtain ⟨front, back, parts, there, _, read, _⟩ := h.part
  exact ⟨front, back, parts, there, _, read⟩

theorem apart (h : Scanned position last cs ts) : ts.Pairwise fun t u => t.stop ≤ u.position := by
  induction h using Scanned.tokenwise with
  | nil => exact .nil
  | blank _ _ ih => exact ih
  | @token position _ w _ l _ read more ih =>
      refine .cons (fun u hu => ?_) ih
      obtain ⟨front, _, _, there, _⟩ := more.exists_part hu
      have written : Token.written ⟨l, position⟩ = w := read.source
      rw [Token.stop, written, there]
      exact Nat.le_add_right _ _

/-- What no token covers is blank. -/
theorem blank_of_not_covers (h : Scanned position last cs ts) {n : Nat} {c : Char} (there : cs[n]? = some c)
    (free : ∀ t ∈ ts, ¬t.Covers (position + n)) : isBlank c = true := by
  induction h using Scanned.tokenwise generalizing n with
  | nil => cases there
  | blank blank _ ih =>
      cases n with
      | zero => exact Option.some.inj there ▸ blank
      | succ n => exact ih there (by rwa [Nat.add_assoc, Nat.add_comm 1])
  | @token position _ w rest l ts read _ ih =>
      have written : Token.written ⟨l, position⟩ = w := read.source
      obtain ⟨first, more⟩ := List.forall_mem_cons.mp free
      have behind : w.length ≤ n := by
        refine Nat.not_lt.mp fun inside => first ⟨Nat.le_add_right _ _, ?_⟩
        rw [Token.stop, written]
        exact Nat.add_lt_add_left inside position
      rw [List.getElem?_append_right behind] at there
      refine ih there ?_
      rwa [Nat.add_assoc, Nat.add_sub_cancel' behind]

/-- A minus sign is read as its place says. -/
theorem lexeme_of_minus {back : List Char} {l : Lexeme} (h : Reads last back ['-'] l) :
    l = if Lexeme.beforeNegation last then .negation else .binary .sub := by
  cases h with
  | numeral run =>
      obtain ⟨c, tail, same, _, starts⟩ := run.starts
      obtain ⟨rfl, rfl⟩ := List.cons.inj same
      cases starts
  | name letter => cases letter
  | symbol read => exact (Option.some.inj read).symm

theorem filled (h : Scanned position last cs ts) (ht : t ∈ ts) : t.written ≠ [] := by
  obtain ⟨_, _, _, _, _, read⟩ := h.exists_part ht
  exact read.filled

theorem tiles (h : Scanned 0 none cs ts) : Tiles cs ts where
  placed t ht := by
    obtain ⟨front, back, rfl, there, _⟩ := h.exists_part ht
    rw [there, Nat.zero_add, List.drop_left, List.take_left]
  increasing := by
    refine h.apart.imp_of_mem fun {t u} ht _ ordered => ?_
    have filled : 0 < t.written.length := List.length_pos_iff.mpr (h.filled ht)
    rw [Token.stop] at ordered
    omega
  apart := h.apart
  filled _ ht := h.filled ht
  solid t ht := by
    obtain ⟨_, _, _, _, _, read⟩ := h.exists_part ht
    exact read.solid
  blank n c there free := h.blank_of_not_covers there (by rwa [Nat.zero_add])
  minus before t after parts sign := by
    obtain ⟨_, _, _, _, _, read, _⟩ := (parts ▸ h).part
    rw [sign] at read
    have lexeme := lexeme_of_minus read
    have seen : Lexeme.beforeNegation (lastOf none before) = true ↔
        ∀ u ∈ before.getLast?, u.lexeme.isOperator = true ∨ u.lexeme.isOpening = true := by
      cases h : before.getLast? <;> simp [lastOf, h, Lexeme.beforeNegation]
    rw [← seen, lexeme]
    split <;> simp [*]

end Scanned

/-! ## Where no token can start -/

/-- A symbol that is no token is none of those that are. -/
theorem not_mem_symbols {c : Char} (h : Lexeme.ofSymbol? last c = none) :
    c ∉ ['+', '-', '*', '/', '^', '(', ')', ','] := by
  intro there
  simp only [List.mem_cons, List.not_mem_nil, or_false] at there
  obtain rfl | rfl | rfl | rfl | rfl | rfl | rfl | rfl := there <;> cases h

/-- The scanner stops at a character at which no token starts, and what it has passed over is read on its own. -/
theorem exists_of_scan_eq_error (h : Token.scan position last cs = .error p) :
    ∃ front c rest, cs = front ++ c :: rest ∧ p = .unknownCharacter c (position + front.length) ∧
      (∃ ts, Scanned position last front ts) ∧ isBlank c = false ∧ ∃ last', Lexeme.read? last' c rest = none := by
  fun_induction Token.scan position last cs with
  | case1 => cases h
  | case2 position last c rest blank ih =>
      obtain ⟨front, d, rest, rfl, rfl, ⟨ts, scanned⟩, stuck⟩ := ih h
      refine ⟨c :: front, d, rest, rfl, ?_, ⟨ts, .blank blank scanned⟩, stuck⟩
      rw [List.length_cons, Nat.add_assoc, Nat.add_comm 1]
  | case3 position last c rest blank none =>
      cases h
      exact ⟨[], c, rest, rfl, rfl, ⟨[], .nil⟩, by simpa using blank, last, none⟩
  | case4 position last c rest _ l read size =>
      rename_i ih
      obtain ⟨w, rest', parts, reads⟩ := exists_reads read
      rw [drop_length_sub_one reads parts] at ih h
      cases scanned : Token.scan (position + size) (some l) rest' with
      | ok tokens =>
          simp only [scanned] at h
          cases h
      | error q =>
          rw [scanned] at h
          cases h
          obtain ⟨front, d, rest, rfl, rfl, ⟨ts, more⟩, stuck⟩ := ih scanned
          rw [show size = w.length from reads.length_source] at more
          refine ⟨w ++ front, d, rest, ?_, ?_, ⟨_, .token reads.of_append more⟩, stuck⟩
          · rw [parts, List.append_assoc]
          · rw [List.length_append, Nat.add_assoc, show size = w.length from reads.length_source]

theorem stuck_of_ofText_eq_error (h : Token.ofText cs = .error p) :
    ∃ c n, p = .unknownCharacter c n ∧ Stuck cs c n := by
  obtain ⟨front, c, rest, rfl, rfl, ⟨ts, scanned⟩, blank, last, unread⟩ := exists_of_scan_eq_error h
  rw [Nat.zero_add]
  rw [Lexeme.read?] at unread
  split_ifs at unread with starts letter
  rw [startsNumeral, Bool.or_eq_true, not_or] at starts
  refine ⟨c, front.length, rfl, ⟨?_, ⟨ts, ?_⟩, blank, by simpa using letter, by simpa using starts.1,
    not_mem_symbols unread, ?_⟩⟩
  · simp
  · rw [List.take_left]
    exact scan_of_scanned scanned
  · rintro rfl d hd
    have next : rest.head? = some d := by simpa [List.getElem?_append_right, List.head?_eq_getElem?] using hd
    simpa [next] using starts.2

/-- **Tokens tile their text.** A text is read as tokens that tile it, or the character at which no token can start is
reported with its position. -/
theorem Token.ofText_tiles (cs : List Char) :
    (∃ ts, ofText cs = .ok ts ∧ Tiles cs ts) ∨
      ∃ c n, ofText cs = .error (.unknownCharacter c n) ∧ Stuck cs c n := by
  cases h : ofText cs with
  | ok ts => exact .inl ⟨ts, rfl, (scanned_of_scan h).tiles⟩
  | error p =>
      obtain ⟨c, n, rfl, stuck⟩ := stuck_of_ofText_eq_error h
      exact .inr ⟨c, n, rfl, stuck⟩

end Surd
