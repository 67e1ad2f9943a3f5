import Surd.Proofs.Token.Reads

/-!
# Reading rule by rule

`Scanned` gives the rules by which the tokens of a text are read: a numeral or a name is read to its end, with the text
that really follows it. They are those of the scanner (`scan_eq_ok_iff`). Where the positions do not matter, `Lexed`
says what tokens a text is read as wherever it starts.
-/

namespace Surd

open Lexeme (read?)

variable {last last' : Option Lexeme} {cs ds rest num w : List Char} {ls : List Lexeme} {ts : List Token} {l : Lexeme}
  {c : Char} {position : Nat}

/-! ## Reading a text -/

/-- The text that starts at a position after a token is read as these tokens. -/
inductive Scanned : Nat → Option Lexeme → List Char → List Token → Prop
  | nil {position : Nat} {last : Option Lexeme} : Scanned position last [] []
  | blank {position : Nat} {last : Option Lexeme} {c : Char} {rest : List Char} {ts : List Token}
      (h : isBlank c = true) (more : Scanned (position + 1) last rest ts) : Scanned position last (c :: rest) ts
  | numeral {position : Nat} {last : Option Lexeme} {num rest : List Char} {ts : List Token}
      (run : NumeralRun num rest)
      (more : Scanned (position + num.length) (some (.number (String.ofList num))) rest ts) :
      Scanned position last (num ++ rest) (⟨.number (String.ofList num), position⟩ :: ts)
  | name {position : Nat} {last : Option Lexeme} {c : Char} {w rest : List Char} {ts : List Token}
      (letter : isLetter c = true) (hw : ∀ d ∈ w, isNameChar d = true) (ends : ∀ d ∈ rest.head?, isNameChar d = false)
      (more : Scanned (position + (w.length + 1)) (some (Lexeme.ofName (String.ofList (c :: w)))) rest ts) :
      Scanned position last (c :: w ++ rest) (⟨Lexeme.ofName (String.ofList (c :: w)), position⟩ :: ts)
  | symbol {position : Nat} {last : Option Lexeme} {c : Char} {l : Lexeme} {rest : List Char} {ts : List Token}
      (read : Lexeme.ofSymbol? last c = some l) (more : Scanned (position + 1) (some l) rest ts) :
      Scanned position last (c :: rest) (⟨l, position⟩ :: ts)

namespace Scanned

theorem token (read : Reads last rest w l) (more : Scanned (position + w.length) (some l) rest ts) :
    Scanned position last (w ++ rest) (⟨l, position⟩ :: ts) := by
  cases read with
  | numeral run => exact .numeral run more
  | name letter hw ends => exact .name letter hw ends more
  | symbol read => exact .symbol read more

/-- Induction over a text that is read: a blank is passed over, or a token is read. -/
@[elab_as_elim]
theorem tokenwise {motive : ∀ position last cs ts, Scanned position last cs ts → Prop}
    (nil : ∀ {position last}, motive position last [] [] .nil)
    (blank : ∀ {position last c rest ts} (blank : isBlank c = true) (more : Scanned (position + 1) last rest ts),
      motive _ _ _ _ more → motive position last (c :: rest) ts (.blank blank more))
    (token : ∀ {position last w rest l ts} (read : Reads last rest w l)
      (more : Scanned (position + w.length) (some l) rest ts),
      motive _ _ _ _ more → motive position last (w ++ rest) (⟨l, position⟩ :: ts) (.token read more))
    {position : Nat} {last : Option Lexeme} {cs : List Char} {ts : List Token} (h : Scanned position last cs ts) :
    motive position last cs ts h := by
  induction h with
  | nil => exact nil
  | blank blanks more ih => exact blank blanks more ih
  | numeral run more ih => exact token (.numeral run) more ih
  | name letter hw ends more ih => exact token (.name letter hw ends) more ih
  | symbol read more ih => exact token (.symbol read) more ih

end Scanned

theorem scan_token (blank : isBlank c = false) (read : read? last c rest = some l)
    (more : Token.scan (position + l.source.length) (some l) (rest.drop (l.source.length - 1)) = .ok ts) :
    Token.scan position last (c :: rest) = .ok (⟨l, position⟩ :: ts) := by
  rw [Token.scan, if_neg (by simp [blank]), read]
  simp only [more]
  rfl

theorem scan_of_scanned (h : Scanned position last cs ts) : Token.scan position last cs = .ok ts := by
  induction h using Scanned.tokenwise with
  | nil => rw [Token.scan]
  | blank blank _ ih => rw [Token.scan, if_pos blank, ih]
  | token read _ ih =>
      obtain ⟨c, w, rfl⟩ := List.exists_cons_of_ne_nil read.filled
      refine scan_token (read.solid c List.mem_cons_self) read.read? ?_
      simpa [read.length_source] using ih

/-- Behind the first character of a token the scanner drops the others. -/
theorem drop_length_sub_one (read : Reads last ds w l) (parts : c :: rest = w ++ ds) :
    rest.drop (l.source.length - 1) = ds := by
  obtain ⟨d, tail, rfl⟩ := List.exists_cons_of_ne_nil read.filled
  obtain ⟨rfl, rfl⟩ := List.cons.inj parts
  simp [read.length_source]

theorem scanned_of_scan (h : Token.scan position last cs = .ok ts) : Scanned position last cs ts := by
  fun_induction Token.scan position last cs generalizing ts with
  | case1 =>
      obtain rfl := Except.ok.inj h
      exact .nil
  | case2 _ _ _ _ blank ih => exact .blank blank (ih h)
  | case3 => cases h
  | case4 position last c rest _ l read size =>
      rename_i ih
      obtain ⟨tokens, scanned, h⟩ := exists_of_bind_eq_ok h
      obtain rfl := Except.ok.inj h
      obtain ⟨w, rest', parts, reads⟩ := exists_reads read
      have more := ih scanned
      rw [drop_length_sub_one reads parts, show size = w.length from reads.length_source] at more
      exact parts ▸ .token reads more

/-- The scanner reads by these rules. -/
theorem scan_eq_ok_iff : Token.scan position last cs = .ok ts ↔ Scanned position last cs ts :=
  ⟨scanned_of_scan, scan_of_scanned⟩

/-! ## Tokens without positions -/

/-- The text after a token is read as these tokens, wherever it starts. -/
def Lexed (last : Option Lexeme) (cs : List Char) (ls : List Lexeme) : Prop :=
  ∀ position, ∃ ts, Scanned position last cs ts ∧ ts.map Token.lexeme = ls

namespace Lexed

theorem nil : Lexed last [] [] := fun _ => ⟨[], .nil, rfl⟩

theorem blank (h : isBlank c = true) (more : Lexed last rest ls) : Lexed last (c :: rest) ls := by
  intro position
  obtain ⟨ts, scanned, rfl⟩ := more (position + 1)
  exact ⟨ts, .blank h scanned, rfl⟩

theorem token (read : Reads last rest w l) (more : Lexed (some l) rest ls) : Lexed last (w ++ rest) (l :: ls) := by
  intro position
  obtain ⟨ts, scanned, rfl⟩ := more (position + w.length)
  exact ⟨_, .token read scanned, rfl⟩

theorem numeral (run : NumeralRun num rest) (more : Lexed (some (.number (String.ofList num))) rest ls) :
    Lexed last (num ++ rest) (.number (String.ofList num) :: ls) := .token (.numeral run) more

theorem name (letter : isLetter c = true) (hw : ∀ d ∈ w, isNameChar d = true)
    (ends : ∀ d ∈ rest.head?, isNameChar d = false)
    (more : Lexed (some (Lexeme.ofName (String.ofList (c :: w)))) rest ls) :
    Lexed last (c :: w ++ rest) (Lexeme.ofName (String.ofList (c :: w)) :: ls) := .token (.name letter hw ends) more

theorem symbol (read : Lexeme.ofSymbol? last c = some l) (more : Lexed (some l) rest ls) :
    Lexed last (c :: rest) (l :: ls) := .token (.symbol read) more

theorem blanks {gap : List Char} (h : ∀ c ∈ gap, isBlank c = true) (more : Lexed last rest ls) :
    Lexed last (gap ++ rest) ls := by
  induction gap with
  | nil => exact more
  | cons c gap ih =>
      obtain ⟨first, others⟩ := List.forall_mem_cons.mp h
      exact .blank first (ih others)

theorem congr (h : Lexed last cs ls) (same : Lexeme.beforeNegation last = Lexeme.beforeNegation last') :
    Lexed last' cs ls := by
  intro position
  obtain ⟨ts, scanned, rfl⟩ := h position
  clear h
  refine ⟨ts, ?_, rfl⟩
  induction scanned using Scanned.tokenwise with
  | nil => exact .nil
  | blank blank _ ih => exact .blank blank (ih same)
  | token read more => exact .token (read.congr same) more

end Lexed

/-- The tokens of a text are read again in front of a text that goes on with none of them. -/
theorem Scanned.lexed_append {back : List Char} (h : Scanned position last cs ts) (ends : EndsToken back)
    (more : ∀ last, Lexed last back ls) (same : Lexeme.beforeNegation last = Lexeme.beforeNegation last') :
    Lexed last' (cs ++ back) (ts.map Token.lexeme ++ ls) := by
  induction h using Scanned.tokenwise generalizing last' with
  | nil => exact more _
  | blank blank _ ih => exact .blank blank (ih same)
  | token read _ ih =>
      rw [List.append_assoc, List.map_cons, List.cons_append]
      exact .token ((read.congr same).append ends) (ih rfl)

end Surd
