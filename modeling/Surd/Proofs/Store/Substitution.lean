import Surd.Proofs.Tree.Expansion
import Surd.Proofs.Tree.Names

/-!
# What a substituted text means

A text that is accepted is read, after the bound names in it are replaced by their numbers, as the same tree with the
numbers in the place of the names (`ofText_substitute`). This needs that no number is shown with an exponent: a text
with `1e+20` in it is read as a sum, and it is not accepted.
-/

namespace Surd

variable {s : Store}

/-- In an expression that derives from the grammar no operand touches another one. -/
theorem Token.Seamless.apart {ts : List Token} (h : Seamless ts) (s : Store) : Apart s ts := by
  have operand {l : Lexeme} (h : l.isNumeral = true ∨ l.isBound s = true) :
      l.endsOperand = true ∧ l.startsOperand = true := by
    cases l with
    | number | «variable» => exact ⟨rfl, rfl⟩
    | _ => simp [Lexeme.isNumeral, Lexeme.isBound] at h
  have never {l l' : Lexeme} (first : l.isNumeral = true ∨ l.isBound s = true)
      (second : l'.isNumeral = true ∨ l'.isBound s = true) : Lexeme.overlooked l l' = true := by
    rw [Lexeme.overlooked, (operand first).1, (operand second).2]
    rfl
  refine h.seam.imp fun t u seam _ => ⟨fun both => ?_, fun both => ?_⟩
  · exact Bool.false_ne_true (seam.symm.trans (never (.inl both.1) (.inr both.2)))
  · exact Bool.false_ne_true (seam.symm.trans (never (.inr both.1) (.inl both.2)))

/-! ## Reading the substituted text -/

namespace Store

variable {text : String} {ts : List Token} {tree : Tree}

/-- The substituted text has the tokens of the text, with those of numbers in the place of bound variables. -/
theorem exists_ofText_substitute (h : s.Plain) (scanned : Token.ofText text.toList = .ok ts) (apart : Token.Apart s ts) :
    ∃ ts', Token.ofText (s.substitute text).toList = .ok ts' ∧
      ts'.map Token.lexeme = (ts.flatMap (Token.expand s)).map Token.lexeme := by
  have lexed : Lexed none (replaceWords (shownWord s.bindings) false text.toList) _ :=
    lexed_replaceWords h (scan_eq_ok_iff.mp scanned) apart nofun rfl
  obtain ⟨ts', scanned', same⟩ := lexed 0
  rw [h.toList_substitute]
  refine ⟨ts', scan_eq_ok_iff.mpr scanned', ?_⟩
  rw [same, Token.map_lexeme_expand, List.flatMap_map]

/-- **What a substituted text means.** Let a text be accepted in which no bound name touches a numeral. Where the bound
names in it have numbers that are shown without an exponent, the substituted text is accepted too, and its tree is that
of the text with the shown numbers in the place of the names. Where one of them has a number that is shown with an
exponent, the substituted text is not accepted. -/
theorem ofText_substitute (h : s.Plain) (accepted : Parsed.ofText text.toList = .accepted ts tree)
    (apart : Token.Apart s ts) :
    ((∀ n ∈ tree.leafNames, ∀ a, s.get? n = some a → a.Positional) →
      ∃ ts' tree', Parsed.ofText (s.substitute text).toList = .accepted ts' tree' ∧ tree.expand? s = some tree') ∧
    ((∃ n ∈ tree.leafNames, ∃ a, s.get? n = some a ∧ ¬a.Positional) →
      (Parsed.ofText (s.substitute text).toList).tree? = none) := by
  obtain ⟨scanned, _, checked, built⟩ := Parsed.of_ofText_accepted accepted
  obtain ⟨ts', scanned', same⟩ := exists_ofText_substitute h scanned apart
  have rebuilt : Tree.ofTokens ts' = Tree.ofTokens (ts.flatMap (Token.expand s)) := Tree.ofTokens_congr same
  have leaf {n : String} : n ∈ tree.leafNames ↔ ∃ t ∈ ts, t.lexeme = .variable n := by
    rw [Tree.leafNames_of_ofTokens built, Token.mem_names_iff]
  constructor
  · intro positional
    have positional : ∀ t ∈ ts, t.lexeme.PositionalIn s := fun t ht n a operand =>
      positional n (leaf.mpr ⟨t, ht, operand⟩) a
    obtain ⟨tree', built', expanded⟩ := Tree.ofTokens_expand h positional checked built
    rw [← rebuilt] at built'
    have checked' : Token.check ts' = [] := by
      rw [Token.check_eq_nil_iff, same, ← Token.check_eq_nil_iff]
      exact Tree.check_expand h positional checked
    have filled : ts' ≠ [] := by
      rintro rfl
      cases built'
    exact ⟨ts', tree', Parsed.ofText_eq_accepted scanned' filled checked' built', expanded⟩
  · rintro ⟨n, hn, a, found, power⟩
    obtain ⟨t, ht, operand⟩ := leaf.mp hn
    have unread := Tree.ofTokens_expand_ne_ok h built ⟨t, ht, fun positional => power (positional n a operand found)⟩
    cases outcome : Parsed.ofText (s.substitute text).toList with
    | rejected => rfl
    | accepted ts₂ tree₂ =>
        obtain ⟨scanned₂, _, _, built₂⟩ := Parsed.of_ofText_accepted outcome
        obtain rfl := Except.ok.inj (scanned'.symm.trans scanned₂)
        exact absurd (rebuilt ▸ built₂) (unread tree₂)

/-- The constants, `x` under minus three and `y` under 10 ^ 20. -/
def signedAndLarge : Store := ⟨constants ++ [("x", .int (-3)), ("y", .real (Double.ofInt (10 ^ 20)))]⟩

/-- With these, `-x^k` goes on to mean a power of the negation of a negation, and `k*y` is not accepted any more. -/
theorem ofText_substitute_signedAndLarge :
    signedAndLarge.Plain ∧
    (∃ ts, Parsed.ofText (signedAndLarge.substitute "-x^k").toList =
      .accepted ts (.binary .pow (.negate (.negate (.number (Double.ofInt 3)))) (.variable "k"))) ∧
    (Parsed.ofText (signedAndLarge.substitute "k*y").toList).tree? = none := by
  have plain : signedAndLarge.Plain := {
    distinct := by decide
    named := by decide
    noFunction := by decide
    bounded := by decide +kernel }
  have power : Parsed.ofText "-x^k".toList = .accepted
      [⟨.negation, 0⟩, ⟨.variable "x", 1⟩, ⟨.binary .pow, 2⟩, ⟨.variable "k", 3⟩]
      (.binary .pow (.negate (.variable "x")) (.variable "k")) := by cbv
  have product : Parsed.ofText "k*y".toList = .accepted
      [⟨.variable "k", 0⟩, ⟨.binary .mul, 1⟩, ⟨.variable "y", 2⟩]
      (.binary .mul (.variable "k") (.variable "y")) := by cbv
  refine ⟨plain, ?_, ?_⟩
  · have positional : ∀ n ∈ ["x", "k"], ∀ a ∈ signedAndLarge.get? n, 'e' ∉ a.shown.toList := by decide +kernel
    obtain ⟨ts', tree', read, expanded⟩ :=
      (ofText_substitute plain power (Token.Seamless.apart ⟨by decide, by decide⟩ _)).1 positional
    have tree : Tree.expand? signedAndLarge (.binary .pow (.negate (.variable "x")) (.variable "k")) =
        some (.binary .pow (.negate (.negate (.number (Double.ofInt 3)))) (.variable "k")) := by decide +kernel
    obtain rfl := Option.some.inj (expanded.symm.trans tree)
    exact ⟨ts', read⟩
  · refine (ofText_substitute plain product (Token.Seamless.apart ⟨by decide, by decide⟩ _)).2 ?_
    have shown : 'e' ∈ (Number.real (Double.ofInt (10 ^ 20))).shown.toList := by decide +kernel
    exact ⟨"y", by decide, _, by decide +kernel, not_not.mpr shown⟩

end Store

end Surd
