import Surd.Store.Basic
import Surd.Text.Word

/-!
# Substitution

A text is shown with the bound names in it replaced by their numbers. A name is replaced where it stands between
word boundaries, the longest names first, one after the other; a negative number is put in parentheses.
-/

namespace Surd

/-- Whether there is a word boundary between two characters, either of which may be missing. -/
def isBoundary (before after : Option Char) : Bool :=
  (before.map isWordChar).getD false != (after.map isWordChar).getD false

/-- The text with a name replaced by another text wherever it stands between word boundaries, `before` being the
character in front of the text. A name that is not empty is looked for from left to right. -/
def replaceName (name shown : List Char) (before : Option Char) : List Char → List Char
  | [] => []
  | c :: rest =>
    if isBoundary before (some c) then
      match name.isPrefixOf? (c :: rest) with
      | some tail =>
        if isBoundary name.getLast? tail.head? then
          shown ++ replaceName name shown name.getLast? (rest.drop (name.length - 1))
        else c :: replaceName name shown (some c) rest
      | none => c :: replaceName name shown (some c) rest
    else c :: replaceName name shown (some c) rest
termination_by cs => cs.length
decreasing_by
  all_goals simp only [List.length_drop, List.length_cons]; omega

/-- A number as it is put into a text. -/
def shownInText (a : Number) : String := if a.isNegative then "(" ++ a.shown ++ ")" else a.shown

namespace Store

/-- The bindings by falling length of their names, in order where lengths agree. -/
def byLength (s : Store) : Entries String Number :=
  s.bindings.mergeSort fun a b => b.1.length ≤ a.1.length

/-- The text with every bound name replaced by its number. -/
def substitute (s : Store) (text : String) : String :=
  String.ofList (s.byLength.foldl
    (fun cs b => replaceName b.1.toList (shownInText b.2).toList none cs) text.toList)

end Store

end Surd
