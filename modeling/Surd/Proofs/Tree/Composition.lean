import Surd.Proofs.Token.Group
import Surd.Proofs.Token.Lexed

/-!
# Texts put together from texts in parentheses

A text that is accepted can be put in parentheses and used as an operand. It keeps its tree there, with whatever commas,
operations and minus signs it has, and though the check overlooks much that no expression has (`ofText_parenthesised`).

Its tokens are read as before, since the first one follows an opening parenthesis as if it followed nothing and the last
one ends at the closing one. The rest is said of tokens: those that pass the check and make a tree do so in a group
(`Makes.group`), and the group is an operand of its own.
-/

namespace Surd

open Lexeme (Flawless)

variable {cs cs₁ cs₂ rest : List Char} {ts ts₁ ts₂ : List Token} {t t₁ t₂ : Tree} {ls : List Lexeme}
  {last : Option Lexeme}

/-- A text in parentheses. -/
def parenthesised (cs : List Char) : List Char := '(' :: (cs ++ [')'])

namespace Token

/-- Tokens in parentheses. -/
def grouped (ts : List Token) : List Token := ⟨.opening "(", 0⟩ :: (ts ++ [⟨.closing ")", 0⟩])

/-- The tokens pass the check and make the tree. -/
structure Makes (ts : List Token) (t : Tree) : Prop where
  flawless : Flawless none 0 (ts.map lexeme)
  balanced : Lexeme.balance (ts.map lexeme) = 0
  built : Tree.ofTokens ts = .ok t

theorem makes_iff : Makes ts t ↔ check ts = [] ∧ Tree.ofTokens ts = .ok t := by
  rw [check_eq_nil_iff]
  constructor
  · rintro ⟨flawless, balanced, built⟩
    exact ⟨⟨flawless, balanced.le⟩, built⟩
  -- No parenthesis is left open, and where there is no flaw none is closed that was not opened.
  · rintro ⟨⟨flawless, closed⟩, built⟩
    have matched := flawless.balance_nonneg le_rfl
    exact ⟨flawless, by omega, built⟩

end Token

open Token (Makes grouped)

/-! ## Groups of tokens -/

theorem Token.map_lexeme_grouped (ts : List Token) :
    (grouped ts).map lexeme = .opening "(" :: (ts.map lexeme ++ [.closing ")"]) := by
  simp [grouped]

theorem Token.balance_grouped (ts : List Token) : Lexeme.balance ((grouped ts).map lexeme) = Lexeme.balance (ts.map lexeme) := by
  simp [map_lexeme_grouped, Lexeme.balance]

/-- An operator waits on an empty stack. -/
theorem Token.arrange_operator_nil {u : Token} (operator : u.lexeme.isOperator = true) (rest : List Token) :
    arrange [] (u :: rest) = arrange [u] rest := by
  rw [arrange_cons, move]
  cases hl : u.lexeme with
  | binary | negation => simp [unstack, ok_bind]
  | _ =>
      rw [hl] at operator
      cases operator

namespace Token.Makes

/-- A group is an operand to the check, after whatever token and in however many parentheses. -/
theorem flawless_grouped (h : Makes ts t) {outer : Int} (outside : 0 ≤ outer)
    (more : Flawless (some (.closing ")")) outer ls) : Flawless last outer ((grouped ts).map lexeme ++ ls) := by
  have inside : Flawless (some (.opening "(")) (0 + (outer + 1)) (ts.map lexeme ++ .closing ")" :: ls) := by
    refine Lexeme.flawless_group h.flawless le_rfl outside nofun ?_
    rwa [h.balanced, zero_add, zero_add]
  rw [zero_add] at inside
  rw [map_lexeme_grouped, List.cons_append, List.append_assoc]
  exact ⟨rfl, inside⟩

theorem flawless_grouped_alone (h : Makes ts t) : Flawless last 0 ((grouped ts).map lexeme) := by
  have alone : Flawless last 0 ((grouped ts).map lexeme ++ []) := h.flawless_grouped le_rfl trivial
  rwa [List.append_nil] at alone

/-- A group leaves as its tokens do by themselves, whatever waits for it and whatever follows. -/
theorem exists_arrange_grouped (h : Makes ts t) :
    ∃ out, Tree.Assembled [] out t ∧ ∀ below rest,
      arrange below (grouped ts ++ rest) = (out ++ (owner below).1 ++ ·) <$> arrange (owner below).2 rest := by
  obtain ⟨out, arranged, assembled⟩ := Tree.ofTokens_eq_ok_iff.mp h.built
  refine ⟨out, assembled, fun below rest => ?_⟩
  have inner := arrange_group "(" ")" 0 0 below rest h.flawless (by simpa [openings] using h.balanced) arranged
  rwa [grouped, List.cons_append, List.append_assoc]

theorem group (h : Makes ts t) : Makes (grouped ts) t where
  flawless := h.flawless_grouped_alone
  balanced := by rw [balance_grouped, h.balanced]
  built := by
    obtain ⟨out, assembled, arranged⟩ := h.exists_arrange_grouped
    refine Tree.ofTokens_eq_ok_iff.mpr ⟨out, ?_, assembled⟩
    simpa [arrange, owner] using arranged [] []

theorem negation (h : Makes ts t) : Makes (⟨.negation, 0⟩ :: grouped ts) (.negate t) where
  flawless := ⟨rfl, h.flawless_grouped_alone⟩
  balanced := by simp [Lexeme.balance_cons, balance_grouped, h.balanced]
  built := by
    obtain ⟨out, assembled, arranged⟩ := h.exists_arrange_grouped
    refine Tree.ofTokens_eq_ok_iff.mpr ⟨out ++ [⟨.negation, 0⟩], ?_, ?_⟩
    · rw [arrange_operator_nil rfl]
      simpa [arrange, owner] using arranged [⟨.negation, 0⟩] []
    · exact assembled.append (.cons (.negation t []) (.nil _))

theorem call (h : Makes ts t) (f : String) : Makes (⟨.function f, 0⟩ :: grouped ts) (.call f t) where
  flawless := ⟨rfl, h.flawless_grouped_alone⟩
  balanced := by simp [Lexeme.balance_cons, balance_grouped, h.balanced]
  built := by
    obtain ⟨out, assembled, arranged⟩ := h.exists_arrange_grouped
    refine Tree.ofTokens_eq_ok_iff.mpr ⟨out ++ [⟨.function f, 0⟩], ?_, ?_⟩
    · simpa [arrange, owner] using arranged [⟨.function f, 0⟩] []
    · exact assembled.append (.cons (.function f t []) (.nil _))

theorem binary (h₁ : Makes ts₁ t₁) (h₂ : Makes ts₂ t₂) (op : BinaryOp) :
    Makes (grouped ts₁ ++ ⟨.binary op, 0⟩ :: grouped ts₂) (.binary op t₁ t₂) where
  flawless := by
    rw [List.map_append]
    exact h₁.flawless_grouped le_rfl ⟨rfl, h₂.flawless_grouped_alone⟩
  balanced := by
    simp [Lexeme.balance_append, Lexeme.balance_cons, balance_grouped, h₁.balanced, h₂.balanced]
  built := by
    obtain ⟨out₁, assembled₁, arranged₁⟩ := h₁.exists_arrange_grouped
    obtain ⟨out₂, assembled₂, arranged₂⟩ := h₂.exists_arrange_grouped
    refine Tree.ofTokens_eq_ok_iff.mpr ⟨out₁ ++ (out₂ ++ [⟨.binary op, 0⟩]), ?_, ?_⟩
    · have right := arranged₂ [⟨.binary op, 0⟩] []
      rw [List.append_nil] at right
      rw [arranged₁, owner, arrange_operator_nil rfl, right]
      simp [arrange, owner]
    · exact assembled₁.append (assembled₂.append (.cons (.binary op t₂ t₁ []) (.nil _)))

theorem tree?_ofTokens (h : Makes ts t) : (Parsed.ofTokens ts).tree? = some t := by
  obtain ⟨checked, built⟩ := makes_iff.mp h
  have filled : ts.isEmpty = false := by
    refine List.isEmpty_eq_false_iff.mpr ?_
    rintro rfl
    cases built
  simp [Parsed.ofTokens, filled, checked, built, Parsed.tree?]

end Token.Makes

/-! ## Texts -/

theorem endsToken_closing (rest : List Char) : EndsToken (')' :: rest) := endsToken_cons.mpr (by decide)

/-- A text in parentheses is read as its tokens in parentheses. -/
theorem lexed_parenthesised (scanned : Token.ofText cs = .ok ts) (more : Lexed (some (.closing ")")) rest ls) :
    Lexed last (parenthesised cs ++ rest) ((grouped ts).map Token.lexeme ++ ls) := by
  have inner : Lexed (some (.opening "(")) (cs ++ ')' :: rest) (ts.map Token.lexeme ++ .closing ")" :: ls) :=
    (scanned_of_scan scanned).lexed_append (endsToken_closing rest) (fun _ => .symbol rfl more) rfl
  have whole : Lexed last ('(' :: (cs ++ ')' :: rest)) _ := .symbol rfl inner
  simpa [parenthesised, Token.map_lexeme_grouped] using whole

theorem lexed_parenthesised_self (scanned : Token.ofText cs = .ok ts) :
    Lexed last (parenthesised cs) ((grouped ts).map Token.lexeme) := by
  have alone : Lexed last (parenthesised cs ++ []) ((grouped ts).map Token.lexeme ++ []) :=
    lexed_parenthesised scanned .nil
  rwa [List.append_nil, List.append_nil] at alone

theorem spelling_functionNames : ∀ f ∈ functionNames, f.toList.head?.any isLetter = true ∧
    f.toList.tail.all isNameChar = true ∧ Lexeme.ofName f = .function f := by decide

theorem lexed_function {f : String} (function : f ∈ functionNames)
    (more : Lexed (some (.function f)) ('(' :: rest) ls) :
    Lexed last (f.toList ++ '(' :: rest) (.function f :: ls) := by
  obtain ⟨letter, name, token⟩ := spelling_functionNames f function
  cases spelled : f.toList with
  | nil =>
      rw [spelled] at letter
      cases letter
  | cons c w =>
      rw [spelled] at letter name
      have whole : String.ofList (c :: w) = f := by rw [← spelled, String.ofList_toList]
      have ends : ∀ d ∈ ('(' :: rest).head?, isNameChar d = false := by
        rintro _ ⟨⟩
        decide
      rw [← token, ← whole] at more ⊢
      exact .name letter (List.all_eq_true.mp name) ends more

theorem lexed_operation {op : BinaryOp} (ranked : op.rank?.isSome = true) (operand : Lexeme.beforeNegation last = false)
    (more : Lexed (some (.binary op)) rest ls) : Lexed last (op.symbol.toList ++ rest) (.binary op :: ls) := by
  cases op with
  | add | mul | div | pow => exact .symbol rfl more
  | sub => exact .symbol (congrArg some (if_neg (by simp [operand]))) more
  | other => cases ranked

namespace Parsed

/-- A text is accepted when its tokens make a tree. -/
theorem tree?_ofText_iff : (ofText cs).tree? = some t ↔ ∃ ts, Token.ofText cs = .ok ts ∧ Makes ts t := by
  constructor
  · intro h
    cases outcome : ofText cs with
    | rejected =>
        rw [outcome] at h
        cases h
    | accepted ts tree =>
        rw [outcome] at h
        obtain rfl := Option.some.inj h
        obtain ⟨scanned, _, checked, built⟩ := of_ofText_accepted outcome
        exact ⟨ts, scanned, Token.makes_iff.mpr ⟨checked, built⟩⟩
  · rintro ⟨ts, scanned, makes⟩
    rw [ofText, scanned]
    exact makes.tree?_ofTokens

/-- A text that is read as tokens that make a tree has this tree. -/
theorem tree?_ofText_of_lexed (lexed : Lexed none cs (ts.map Token.lexeme)) (makes : Makes ts t) :
    (ofText cs).tree? = some t := by
  obtain ⟨us, scanned, same⟩ := lexed 0
  have read : Token.ofText cs = .ok us := scan_of_scanned scanned
  rw [ofText, read]
  exact (ofTokens_congr same).1.trans makes.tree?_ofTokens

/-- **Parentheses isolate a text.** An accepted text in parentheses has the tree that it has by itself, and it is one
operand of a negation, of a function or of an operation on two. -/
theorem ofText_parenthesised {op : BinaryOp} {f : String} (h : (ofText cs).tree? = some t)
    (h₁ : (ofText cs₁).tree? = some t₁) (h₂ : (ofText cs₂).tree? = some t₂) (ranked : op.rank?.isSome = true)
    (function : f ∈ functionNames) :
    (ofText (parenthesised cs)).tree? = some t ∧
    (ofText ('-' :: parenthesised cs)).tree? = some (.negate t) ∧
    (ofText (f.toList ++ parenthesised cs)).tree? = some (.call f t) ∧
    (ofText (parenthesised cs₁ ++ (op.symbol.toList ++ parenthesised cs₂))).tree? = some (.binary op t₁ t₂) := by
  obtain ⟨ts, scanned, makes⟩ := tree?_ofText_iff.mp h
  obtain ⟨ts₁, scanned₁, makes₁⟩ := tree?_ofText_iff.mp h₁
  obtain ⟨ts₂, scanned₂, makes₂⟩ := tree?_ofText_iff.mp h₂
  refine ⟨?_, ?_, ?_, ?_⟩
  · exact tree?_ofText_of_lexed (lexed_parenthesised_self scanned) makes.group
  · exact tree?_ofText_of_lexed (.symbol rfl (lexed_parenthesised_self scanned)) makes.negation
  · exact tree?_ofText_of_lexed (lexed_function function (lexed_parenthesised_self scanned)) (makes.call f)
  · refine tree?_ofText_of_lexed ?_ (makes₁.binary makes₂ op)
    rw [List.map_append]
    exact lexed_parenthesised scanned₁ (lexed_operation ranked rfl (lexed_parenthesised_self scanned₂))

/-- A comma in front of a minus sign, and a group that starts with an operation, in parentheses of their own. -/
theorem ofText_parenthesised_loose :
    (ofText "(x,-y)".toList).tree? = some (.binary .sub (.variable "x") (.variable "y")) ∧
    (ofText "sqrt(x,-y)".toList).tree? = some (.call "sqrt" (.binary .sub (.variable "x") (.variable "y"))) ∧
    (ofText "(x,-y)^(x(*y))".toList).tree? = some (.binary .pow (.binary .sub (.variable "x") (.variable "y"))
      (.binary .mul (.variable "x") (.variable "y"))) := by
  have difference : (ofText "x,-y".toList).tree? = some (.binary .sub (.variable "x") (.variable "y")) := by cbv
  have product : (ofText "x(*y)".toList).tree? = some (.binary .mul (.variable "x") (.variable "y")) := by cbv
  have ranked : BinaryOp.pow.rank?.isSome = true := rfl
  have root : "sqrt" ∈ functionNames := by decide
  obtain ⟨group, _, call, power⟩ := ofText_parenthesised difference difference product ranked root
  exact ⟨group, call, power⟩

end Parsed

end Surd
