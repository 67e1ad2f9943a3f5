import Surd.Proofs.Token.Bare
import Surd.Proofs.Token.Lexed

/-!
# Spaces between tokens

The tokens of a text, written one after the other with blanks between them, are read as the same tokens
(`Scanned.lexed_spaced`): a blank ends every numeral and every name, and the token in front of a minus sign is the same
as before. What becomes of an expression does not depend on its spaces then (`Parsed.ofText_spaced`), whether it is
accepted or not.
-/

namespace Surd

variable {last last' : Option Lexeme} {cs : List Char} {ts : List Token} {gap : ℕ → List Char}
  {n position : ℕ}

/-- The tokens written one after the other: in front of each one the gap with its number, and one more gap at the end. -/
def Lexeme.spaced (gap : ℕ → List Char) : List Lexeme → List Char
  | [] => gap 0
  | l :: ls => gap 0 ++ (l.source.toList ++ spaced (fun i => gap (i + 1)) ls)

/-- The gaps around `n` tokens are blank, and none between two of them is empty. -/
structure Gaps (gap : ℕ → List Char) (n : ℕ) : Prop where
  blank : ∀ i, ∀ c ∈ gap i, isBlank c = true
  filled : ∀ i, 0 < i → i < n → gap i ≠ []

theorem Gaps.tail (h : Gaps gap (n + 1)) : Gaps (fun i => gap (i + 1)) n :=
  ⟨fun i => h.blank (i + 1), fun i _ below => h.filled (i + 1) i.succ_pos (Nat.succ_lt_succ below)⟩

/-- A token ends where a gap follows, or where the text ends behind the last one. -/
theorem Gaps.endsToken (h : Gaps gap (ts.length + 1)) :
    EndsToken (Lexeme.spaced (fun i => gap (i + 1)) (ts.map Token.lexeme)) := by
  cases next : gap 1 with
  | cons c rest =>
      have blank : isBlank c = true := h.blank 1 c (by simp [next])
      cases ts with
      | nil => simpa [Lexeme.spaced, next] using endsToken_of_isBlank blank rest
      | cons => simpa [Lexeme.spaced, next] using endsToken_of_isBlank blank _
  | nil =>
      cases ts with
      | nil => simpa [Lexeme.spaced, next] using endsToken_nil
      | cons => exact absurd next (h.filled 1 one_pos (by simp))

/-- The tokens of a text are read again from any text in which they are spaced out. -/
theorem Scanned.lexed_spaced (h : Scanned position last cs ts) (gaps : Gaps gap ts.length)
    (same : Lexeme.beforeNegation last = Lexeme.beforeNegation last') :
    Lexed last' (Lexeme.spaced gap (ts.map Token.lexeme)) (ts.map Token.lexeme) := by
  induction h using Scanned.tokenwise generalizing gap last' with
  | nil =>
      have trailing := Lexed.blanks (gaps.blank 0) (.nil : Lexed last' [] [])
      rwa [List.append_nil] at trailing
  | blank _ _ ih => exact ih gaps same
  | token read _ ih =>
      -- What follows now is a gap or nothing, so the token is read to the same end.
      rw [List.map_cons, Lexeme.spaced, read.source]
      exact .blanks (gaps.blank 0) (.token ((read.congr same).of_ends gaps.endsToken) (ih gaps.tail rfl))

/-- **Spaces do not matter.** The tokens of a text, written with blanks between them, are read as the same tokens, and
the text is accepted with the same tree and the same variables, or rejected for the same reason. -/
theorem Parsed.ofText_spaced (scanned : Token.ofText cs = .ok ts) (gaps : Gaps gap ts.length) :
    (∃ ts', Token.ofText (Lexeme.spaced gap (ts.map Token.lexeme)) = .ok ts' ∧
      ts'.map Token.lexeme = ts.map Token.lexeme) ∧
    (ofText (Lexeme.spaced gap (ts.map Token.lexeme))).rejection? = (ofText cs).rejection? ∧
    (ofText (Lexeme.spaced gap (ts.map Token.lexeme))).tree? = (ofText cs).tree? ∧
    (ofText (Lexeme.spaced gap (ts.map Token.lexeme))).variableNames = (ofText cs).variableNames := by
  obtain ⟨ts', scanned', same⟩ := (scanned_of_scan scanned).lexed_spaced gaps rfl 0
  have scanned' : Token.ofText (Lexeme.spaced gap (ts.map Token.lexeme)) = .ok ts' := scan_of_scanned scanned'
  obtain ⟨tree, rejection⟩ := Parsed.ofTokens_congr same
  have outcome : ofText cs = ofTokens ts := by rw [ofText, scanned]
  have outcome' : ofText (Lexeme.spaced gap (ts.map Token.lexeme)) = ofTokens ts' := by rw [ofText, scanned']
  rw [outcome, outcome']
  exact ⟨⟨ts', scanned', same⟩, rejection, tree, congrArg (fun t => (t.map Tree.variableNames).getD []) tree⟩

/-- A tab and a blank behind every token and nothing in front of the first: two points part a numeral, and the minus
sign stays a negation. -/
theorem Parsed.ofText_spaced_points :
    ∃ ts, Token.ofText "1.2.3*-x".toList = .ok ts ∧ ts.length = 5 ∧
      Gaps (fun i => if i = 0 then [] else ['\t', ' ']) ts.length ∧
      Lexeme.spaced (fun i => if i = 0 then [] else ['\t', ' ']) (ts.map Token.lexeme) =
        "1.2\t .3\t *\t -\t x\t ".toList ∧
      (ofText "1.2\t .3\t *\t -\t x\t ".toList).rejection? = (ofText "1.2.3*-x".toList).rejection? := by
  have scanned : Token.ofText "1.2.3*-x".toList =
      .ok [⟨.number "1.2", 0⟩, ⟨.number ".3", 3⟩, ⟨.binary .mul, 5⟩, ⟨.negation, 6⟩, ⟨.variable "x", 7⟩] := by cbv
  have gaps : Gaps (fun i => if i = 0 then [] else ['\t', ' ']) 5 := by
    refine ⟨fun i c hc => ?_, fun i first _ => by simp [first.ne']⟩
    split at hc
    · cases hc
    · obtain rfl | rfl := by simpa using hc
      · decide
      · decide
  exact ⟨_, scanned, rfl, gaps, by decide, (ofText_spaced scanned gaps).2.1⟩

end Surd
