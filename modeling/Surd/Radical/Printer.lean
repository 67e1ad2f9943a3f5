import Surd.Radical.Basic

/-!
# Writing radicals

A coefficient of one is not written, a coefficient of minus one is a sign, and a radicand of one is no root. In a
sum the constant comes first and the sign of a later term stands between spaces; a sum of nothing is `0`.
-/

namespace Surd

/-- The text of a radical. -/
def Radical.text (r : Radical) : String :=
  let unit := if r.imaginary then "i" else ""
  if r.imaginary && r.coefficient.isZero then "0"
  else if r.radicand.equal 1 then
    if r.imaginary && r.coefficient.equal 1 then "i"
    else if r.imaginary && r.coefficient.equal (.int (-1)) then "-i"
    else r.coefficient.shown ++ unit
  else if r.coefficient.equal 1 then unit ++ "√" ++ r.radicand.text
  else if r.coefficient.equal (.int (-1)) then "-" ++ unit ++ "√" ++ r.radicand.text
  else r.coefficient.shown ++ unit ++ "√" ++ r.radicand.text

namespace RadicalSum

/-- The text of a term on its own. -/
def termText (t : Term) : String := Radical.text ⟨t.coefficient, t.radicand, false⟩

/-- The text of a term after other parts. -/
def laterText (t : Term) : String :=
  match (termText t).toList with
  | '-' :: rest => " - " ++ String.ofList rest
  | cs => " + " ++ String.ofList cs

/-- The text of the terms, the first of them written on its own. -/
def termsText : List Term → String
  | [] => "0"
  | t :: rest => termText t ++ String.join (rest.map laterText)

/-- The text of a sum. -/
def text (s : RadicalSum) : String :=
  let terms := s.terms.filter fun t => !t.coefficient.isZero
  if s.constant.isZero then termsText terms
  else s.constant.shown ++ String.join (terms.map laterText)

/-- The description of a sum that messages and logs show. -/
def describe (s : RadicalSum) : String :=
  let term (t : Term) :=
    "RadicalTerm(coefficient=" ++ t.coefficient.text ++ ", radicand=" ++ t.radicand.text ++ ")"
  "RadicalExpression(terms=[" ++ ", ".intercalate (s.terms.map term) ++ "], constant=" ++ s.constant.text ++ ")"

end RadicalSum

end Surd
