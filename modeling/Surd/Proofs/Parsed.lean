import Surd.Proofs.Token.Ranked
import Surd.Proofs.Token.Tiling

/-!
# What becomes of a text

The reading of a text ends at one of five places (`Parsed.Outcome`): at a character that starts no token, at a text
without tokens, at the first flaw that the check finds, at tokens that make no tree, or with a tree. No operation on
plain numbers or texts fails on the way, whatever malformed tokens the check lets through: the operations that are read
have ranks, the numerals that are read denote numbers, and a tree that is missing is a problem of its own. So the code
of an outcome tells where the reading ended (`Parsed.ofText_coherent`).
-/

namespace Surd

variable {last : Option Lexeme} {cs rest w : List Char} {ts : List Token} {l : Lexeme} {position : Nat}

/-! ## Tokens that are read -/

theorem Reads.exists_number (h : Reads last rest w l) {text : String} (number : l = .number text) :
    ∃ x, Double.ofText? text.toList = some x := by
  cases h with
  | numeral run =>
      cases number
      rw [String.toList_ofList]
      exact run.exists_ofText?
  | name =>
      rw [Lexeme.ofName] at number
      split at number <;> cases number
  | symbol read =>
      subst number
      unfold Lexeme.ofSymbol? at read
      split at read
      case h_2 => split at read <;> cases read
      all_goals cases read

/-- The tokens of a text stand for something each. -/
theorem Scanned.legible (h : Scanned position last cs ts) : ∀ t ∈ ts, t.lexeme.Legible := by
  have ranked := Token.exists_rank_of_scan (scan_of_scanned h)
  intro t ht
  cases hl : t.lexeme with
  | number text =>
      obtain ⟨_, _, _, _, _, read⟩ := h.exists_part ht
      exact read.exists_number hl
  | binary op => exact ranked t ht op hl
  | _ => trivial

/-- The texts without tokens are the blank ones. -/
theorem Token.ofText_eq_nil_iff : ofText cs = .ok [] ↔ ∀ c ∈ cs, isBlank c = true := by
  constructor
  · intro h c hc
    obtain ⟨n, there⟩ := List.mem_iff_getElem?.mp hc
    exact (scanned_of_scan h).blank_of_not_covers there (List.forall_mem_nil _)
  · intro blank
    have lexed : Lexed none (cs ++ []) [] := .blanks blank .nil
    obtain ⟨ts, scanned, none⟩ := lexed 0
    rw [List.append_nil] at scanned
    obtain rfl := List.map_eq_nil_iff.mp none
    exact scan_of_scanned scanned

/-- A legible numeral denotes a number. -/
theorem Lexeme.Legible.denotes (h : l.Legible) : l.Denotes := by
  cases l with
  | number => exact h
  | _ => trivial

namespace Tree

/-- Legible tokens make a tree, or the problem is that they make none. -/
theorem ofTokens_answers (legible : ∀ t ∈ ts, t.lexeme.Legible) :
    (∃ t, ofTokens ts = .ok t) ∨ ∃ p, ofTokens ts = .error (.problem p) ∧ Unshaped p := by
  have ranked : Token.Ranked ts := fun t ht op operation => by
    have rank := legible t ht
    rwa [operation] at rank
  obtain ⟨out, arranged, _⟩ := Token.arrange_returns ranked (List.forall_mem_nil _)
  have legible' : ∀ t ∈ out, t.lexeme.Legible := fun t ht =>
    legible t ((Token.mem_of_mem_arrange arranged t ht).resolve_left List.not_mem_nil)
  rw [ofTokens, Token.toPostfix, arranged]
  exact assemble_answers (fun t ht => (legible' t ht).denotes) []

end Tree

namespace Parsed

variable {p : Parsed}

/-- Where the reading of a text ends, and what it ends with. -/
inductive Outcome (cs : List Char) : Parsed → Prop
  /-- At a character that starts no token. -/
  | unreadable {c : Char} {n : Nat} (unread : Token.ofText cs = .error (.unknownCharacter c n)) :
      Outcome cs (rejected [] (.unreadable (.unknownCharacter c n)))
  /-- At a text without tokens. -/
  | empty (read : Token.ofText cs = .ok []) : Outcome cs (rejected [] .empty)
  /-- At the first flaw. -/
  | flawed {ts : List Token} {c : Complaint} {others : List Complaint} (read : Token.ofText cs = .ok ts)
      (filled : ts ≠ []) (checked : Token.check ts = c :: others) : Outcome cs (rejected ts (.flawed c.flaw))
  /-- At tokens that make no tree. -/
  | shapeless {ts : List Token} {p : Problem} (read : Token.ofText cs = .ok ts) (filled : ts ≠ [])
      (checked : Token.check ts = []) (unbuilt : Tree.ofTokens ts = .error (.problem p)) (unshaped : Tree.Unshaped p) :
      Outcome cs (rejected ts (.shapeless (.problem p)))
  /-- With a tree. -/
  | accepted {ts : List Token} {t : Tree} (read : Token.ofText cs = .ok ts) (filled : ts ≠ [])
      (checked : Token.check ts = []) (built : Tree.ofTokens ts = .ok t) : Outcome cs (accepted ts t)

theorem outcome_ofText (cs : List Char) : Outcome cs (ofText cs) := by
  rw [ofText]
  cases read : Token.ofText cs with
  | error p =>
      obtain ⟨c, n, rfl, _⟩ := stuck_of_ofText_eq_error read
      exact .unreadable read
  | ok ts =>
      have legible := (scanned_of_scan read).legible
      by_cases filled : ts = []
      · subst filled
        exact .empty read
      · simp only [ofTokens, List.isEmpty_eq_false_iff.mpr filled]
        cases checked : Token.check ts with
        | cons c others => exact .flawed read filled checked
        | nil =>
            obtain ⟨t, built⟩ | ⟨p, unbuilt, unshaped⟩ := Tree.ofTokens_answers legible
            · simp only [built]
              exact .accepted read filled checked built
            · simp only [unbuilt]
              exact .shapeless read filled checked unbuilt unshaped

/-- The code of the error that an outcome reports. -/
def errorCode? (p : Parsed) : Option String := p.rejection?.map Rejection.code

/-- The message of the error that an outcome reports. -/
def errorMessage? (p : Parsed) : Option String := p.rejection?.map Rejection.message

section

variable (ts : List Token) (t : Tree) (r : Rejection)

@[simp] theorem tree?_accepted : (accepted ts t).tree? = some t := rfl

@[simp] theorem tree?_rejected : (rejected ts r).tree? = none := rfl

@[simp] theorem tokens_accepted : (accepted ts t).tokens = ts := rfl

@[simp] theorem tokens_rejected : (rejected ts r).tokens = ts := rfl

@[simp] theorem rejection?_accepted : (accepted ts t).rejection? = none := rfl

@[simp] theorem rejection?_rejected : (rejected ts r).rejection? = some r := rfl

@[simp] theorem errorCode?_accepted : (accepted ts t).errorCode? = none := rfl

@[simp] theorem errorCode?_rejected : (rejected ts r).errorCode? = some r.code := rfl

@[simp] theorem variableNames_rejected : (rejected ts r).variableNames = [] := rfl

end

/-- The outcome of a text is a tree or an error, and the code of the error tells where the reading ended. -/
structure Coherent (cs : List Char) (p : Parsed) : Prop where
  /-- No operation on plain numbers and texts fails. -/
  faultless : ∀ f, p.rejection? ≠ some (.shapeless (.fault f))
  valid_iff : p.rejection? = none ↔ p.tree?.isSome = true
  silent_iff : p.tree?.isSome = true ↔ p.errorMessage? = none ∧ p.errorCode? = none
  nameless : p.tree? = none → p.variableNames = []
  tokens : ∀ ts, Token.ofText cs = .ok ts → p.tokens = ts
  built_iff : ∀ t, p.tree? = some t ↔
    ∃ ts, Token.ofText cs = .ok ts ∧ ts ≠ [] ∧ Token.check ts = [] ∧ Tree.ofTokens ts = .ok t
  unreadable_iff : p.errorCode? = some "3030" ↔ ∃ problem, Token.ofText cs = .error problem
  tokenless : p.errorCode? = some "3030" → p.tokens = []
  empty_iff : p.errorCode? = some "3027" ↔ ∀ c ∈ cs, isBlank c = true
  flawed_iff : p.errorCode? = some "3031" ↔ ∃ ts, Token.ofText cs = .ok ts ∧ ts ≠ [] ∧ Token.check ts ≠ []
  otherwise : ∀ code ∈ p.errorCode?, code ∈ ["3030", "3027", "3031"] ∨ code = "3032" ∨ code = "3033"

theorem Outcome.coherent (h : Outcome cs p) : Coherent cs p where
  faultless f := by cases h <;> simp
  valid_iff := by cases h <;> simp
  silent_iff := by cases h <;> simp [errorMessage?]
  nameless := by cases h <;> simp
  tokens := by cases h <;> simp [*]
  built_iff := by cases h <;> simp [*]
  unreadable_iff := by
    cases h with
    | shapeless read _ _ _ unshaped => simp [Rejection.code, Stop.code, unshaped.code_ne, read]
    | _ => simp [Rejection.code, Problem.code, *]
  tokenless := by
    cases h with
    | unreadable => simp
    | shapeless _ _ _ _ unshaped => simp [Rejection.code, Stop.code, unshaped.code_ne]
    | _ => simp [Rejection.code]
  empty_iff := by
    rw [← Token.ofText_eq_nil_iff]
    cases h with
    | shapeless read filled _ _ unshaped => simp [Rejection.code, Stop.code, unshaped.code_ne, read, filled]
    | _ => simp [Rejection.code, Problem.code, *]
  flawed_iff := by
    cases h with
    | shapeless read _ checked _ unshaped => simp [Rejection.code, Stop.code, unshaped.code_ne, read, checked]
    | _ => simp [Rejection.code, Problem.code, *]
  otherwise := by
    cases h with
    | shapeless _ _ _ _ unshaped => simpa [Rejection.code, Stop.code] using .inr unshaped
    | _ => simp [Rejection.code, Problem.code]

/-- **What becomes of a text.** Every text has a tree or an error, no operation on plain numbers and texts fails, and
the code of the error tells where the reading ended. -/
theorem ofText_coherent (cs : List Char) : Coherent cs (ofText cs) := (outcome_ofText cs).coherent

end Parsed

end Surd
