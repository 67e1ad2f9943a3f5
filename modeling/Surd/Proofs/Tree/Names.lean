import Surd.Proofs.Phrase.Acceptance

/-!
# Names in the order of the text

Postfix order moves operators and leaves operands where they are, and each tree that is put together has the leaves of
its operands from left to right. So the names of a tree are those of its tokens, in the same order
(`leafNames_of_ofTokens`), also where the tokens derive from no grammar. Its variables are these names where they first
appear (`variableNames_ofText`).
-/

namespace Surd

/-- The name of a variable. -/
def Lexeme.name? : Lexeme → Option String
  | .variable name => some name
  | _ => none

namespace Token

/-- The names of the variables among tokens, in order. -/
def names (ts : List Token) : List String := ts.filterMap fun t => t.lexeme.name?

variable {stack ts out : List Token}

theorem names_append (ts us : List Token) : names (ts ++ us) = names ts ++ names us := List.filterMap_append

theorem names_cons (t : Token) (ts : List Token) : names (t :: ts) = names [t] ++ names ts := names_append [t] ts

theorem names_singleton (t : Token) : names [t] = t.lexeme.name?.toList := by
  cases named : t.lexeme.name? <;> simp [names, named]

theorem mem_names_iff {n : String} : n ∈ names ts ↔ ∃ t ∈ ts, t.lexeme = .variable n := by
  have named (l : Lexeme) : l.name? = some n ↔ l = .variable n := by cases l <;> simp [Lexeme.name?]
  simp [names, named]

theorem names_operands (ts : List Token) : names (operands ts) = names ts := by
  rw [names, operands, List.filterMap_filter]
  refine List.filterMap_congr fun t _ => ?_
  cases t.lexeme <;> rfl

/-- No variable waits on the stack, so the names leave in the order in which they come. -/
theorem names_toPostfix (h : toPostfix ts = .ok out) : names out = names ts := by
  rw [← names_operands, operands_arrange h rfl, names_operands]

end Token

namespace Tree

open Token

variable {stack stack' : List Tree} {ts : List Token} {t : Tree}

/-- The names in a stack of trees, whose top is the last that was read. -/
def stackNames (stack : List Tree) : List String := stack.reverse.flatMap leafNames

theorem stackNames_cons (t : Tree) (stack : List Tree) : stackNames (t :: stack) = stackNames stack ++ t.leafNames := by
  simp [stackNames]

theorem Pushed.stackNames_eq {l : Lexeme} (h : Pushed l stack stack') :
    stackNames stack' = stackNames stack ++ l.name?.toList := by
  cases h <;> simp [stackNames_cons, leafNames, Lexeme.name?]

theorem Assembled.leafNames_eq (h : Assembled stack ts t) : t.leafNames = stackNames stack ++ names ts := by
  induction h with
  | nil => simp [stackNames, names]
  | @cons u _ _ ts _ pushed _ ih => rw [ih, pushed.stackNames_eq, names_cons u ts, names_singleton, List.append_assoc]

/-- The names of a tree are those of its tokens, in order. -/
theorem leafNames_of_ofTokens (h : ofTokens ts = .ok t) : t.leafNames = names ts := by
  obtain ⟨out, arranged, assembled⟩ := ofTokens_eq_ok_iff.mp h
  rw [assembled.leafNames_eq, names_toPostfix arranged]
  rfl

end Tree

/-- The names of an accepted text are those of its tokens, each where it first appears. -/
theorem Parsed.variableNames_of_accepted {cs : List Char} {ts : List Token} {t : Tree}
    (h : ofText cs = .accepted ts t) : t.variableNames = (Token.names ts).eraseDups := by
  obtain ⟨_, _, _, built⟩ := of_ofText_accepted h
  rw [Tree.variableNames, Tree.leafNames_of_ofTokens built]

/-! ## First appearances -/

/-- The names that do not stand further left already, in order. -/
def firstAppearances (names : List String) : List String :=
  (names.zipIdx.filter fun e => e.1 ∉ names.take e.2).map Prod.fst

theorem firstAppearances_concat (names : List String) (name : String) :
    firstAppearances (names ++ [name]) = firstAppearances names ++ if name ∈ names then [] else [name] := by
  have before : ∀ e ∈ names.zipIdx, (names ++ [name]).take e.2 = names.take e.2 := by
    intro e he
    have inside : e.2 < names.length := by simpa using (List.mem_zipIdx he).2.1
    exact List.take_append_of_le_length inside.le
  have same : (names.zipIdx.filter fun e => e.1 ∉ (names ++ [name]).take e.2) =
      names.zipIdx.filter fun e => e.1 ∉ names.take e.2 :=
    List.filter_congr fun e he => by rw [before e he]
  rw [firstAppearances, List.zipIdx_append, List.filter_append, List.map_append, same]
  by_cases there : name ∈ names <;> simp [firstAppearances, there]

theorem eraseDups_eq_firstAppearances (names : List String) : names.eraseDups = firstAppearances names := by
  induction names using List.reverseRecOn with
  | nil => rfl
  | append_singleton names name ih =>
      rw [firstAppearances_concat, List.eraseDups_append, ih]
      by_cases there : name ∈ names <;> simp [List.removeAll, List.eraseDups_cons, there]

namespace Parsed

/-- **Variables in the order of the text.** The leaves of the tree of an accepted text have the names of its tokens, all
of them and in their order, and the variables that are reported are these names where they first appear. -/
theorem variableNames_ofText {cs : List Char} {ts : List Token} {t : Tree} (h : ofText cs = .accepted ts t) :
    Token.ofText cs = .ok ts ∧ t.leafNames = Token.names ts ∧
      (ofText cs).variableNames = firstAppearances (Token.names ts) := by
  obtain ⟨scanned, _, _, built⟩ := of_ofText_accepted h
  refine ⟨scanned, Tree.leafNames_of_ofTokens built, ?_⟩
  rw [← eraseDups_eq_firstAppearances, ← variableNames_of_accepted h, h]
  rfl

/-- A group that starts with an operation, and a name that comes again. -/
theorem variableNames_ofText_loose :
    (∃ ts, ofText "b(*a)^b".toList =
      .accepted ts (.binary .pow (.binary .mul (.variable "b") (.variable "a")) (.variable "b"))) ∧
    (ofText "b(*a)^b".toList).variableNames = ["b", "a"] := by
  have accepted : ofText "b(*a)^b".toList = .accepted
      [⟨.variable "b", 0⟩, ⟨.opening "(", 1⟩, ⟨.binary .mul, 2⟩, ⟨.variable "a", 3⟩, ⟨.closing ")", 4⟩,
        ⟨.binary .pow, 5⟩, ⟨.variable "b", 6⟩]
      (.binary .pow (.binary .mul (.variable "b") (.variable "a")) (.variable "b")) := by cbv
  obtain ⟨_, _, reported⟩ := variableNames_ofText accepted
  exact ⟨⟨_, accepted⟩, reported.trans (by decide)⟩

end Parsed

end Surd
