import Surd.Function
import Surd.Parsed
import Surd.Entries
import Surd.Radical.Arithmetic
import Surd.Radical.Printer

/-!
# Evaluation

A tree is worth a double and, where every step to it kept one, an exact radical sum. Each operation has one rule
for either side: the one on doubles also finds all domain errors, the one on radical sums never looks for any.
Whole numerals and square roots of whole numbers start an exact side; variables, functions and division by a
radical end it.

`Evaluation.ofText` reads a text and evaluates it against named values. Its result is a value or an error with a
code, whatever happens on the way.
-/

namespace Surd

/-- What evaluation is told beside the tree. -/
structure Options where
  /-- Whether angles are in degrees. -/
  degrees : Bool
  /-- The greatest whole number whose square root is kept exact. -/
  exactLimit : Except Fault Number

/-- What a tree is worth. -/
structure Worth where
  value : Double
  exact : Option RadicalSum

namespace Evaluation

/-! ## Doubles -/

/-- An infinity is an overflow. -/
def checked (x : Double) : Except Stop Double := if x.isInfinite then refuse .overflow else .ok x

/-- The power, its two ways to fail being problems of the calculator. -/
def decimalPower (lib : Elementary) (x y : Double) : Except Stop Double :=
  match lib.power x y with
  | .ok z => .ok z
  | .error .mathRange => refuse .overflow
  | .error _ => refuse (.noRealPower x y)

/-- A binary operation on doubles, before the check for an overflow. -/
def decimalBinary (lib : Elementary) (op : BinaryOp) (x y : Double) : Except Stop Double :=
  match op with
  | .add => .ok (x.add y)
  | .sub => .ok (x.sub y)
  | .mul => .ok (x.mul y)
  | .div => if Number.doubleIsZero y then refuse .divisionByZero else .ok (x.div y)
  | .pow => decimalPower lib x y
  | .other symbol => refuse (.unknownOperator symbol)

/-- A function on doubles, before the check for an overflow. -/
def decimalCall (lib : Elementary) (degrees : Bool) (name : String) (x : Double) : Except Stop Double := do
  let r ← Function.apply lib name (.real x) degrees
  r.toDouble

/-! ## Radical sums -/

/-- A sum of two worths' exact sides; a side that has none takes part with its double. -/
def exactSum (left : Option RadicalSum) (x : Double) (right : Option RadicalSum) (y : Double) :
    Except Fault (Option RadicalSum) :=
  match left, right with
  | some s, some t => some <$> s.add t
  | some s, none => do RadicalSum.ofTerms s.terms (← s.constant.add (.real y))
  | none, some t => do RadicalSum.ofTerms t.terms (← t.constant.add (.real x))
  | none, none => .ok none

/-- An upper bound for the size of a sum: its terms and its constant without their signs. -/
def bound (s : RadicalSum) : Except Fault Number := do
  let total ← s.terms.foldlM
    (fun acc t => do acc.add (← t.coefficient.abs.mul (.real (← t.radicand.sqrt)))) (0 : Number)
  s.constant.abs.add total

/-- Whether a power of a sum can be expanded without a coefficient beyond the range of doubles: the power of its
bound is below the greatest double, compared by logarithms. -/
def powerFits (lib : Elementary) (s : RadicalSum) (exponent : Number) : Except Fault Bool := do
  let b ← bound s
  if b.le 1 then return true
  let size ← exponent.mul (.real (← b.logarithm lib.log))
  return size.lt (.real (← (Number.real Double.greatest).logarithm lib.log))

/-- The exact side of a binary operation. -/
def exactBinary (lib : Elementary) (op : BinaryOp) (left right : Worth) : Except Fault (Option RadicalSum) :=
  match op with
  | .add => exactSum left.exact left.value right.exact right.value
  | .sub => do
    let opposite ← right.exact.mapM RadicalSum.negate
    exactSum left.exact left.value opposite right.value.neg
  | .mul =>
    match left.exact, right.exact with
    | some s, some t => some <$> s.multiply t
    | some s, none => some <$> s.scale (.real right.value)
    | none, some t => some <$> t.scale (.real left.value)
    | none, none => .ok none
  | .div =>
    match left.exact with
    | some s =>
      if (right.exact.map RadicalSum.hasRadicals).getD false then .ok none
      else some <$> s.divide (.real right.value)
    | none => .ok none
  | .pow =>
    match left.exact with
    | some s =>
      if right.value.compareInt? 0 != some .lt && right.value.isWhole then do
        if ← powerFits lib s (.real right.value) then
          some <$> s.power (.int (← (Number.real right.value).truncate))
        else return none
      else .ok none
    | none => .ok none
  | .other _ => .ok none

/-- Whether the square root of a double is kept exact. -/
def isExactRadicand (options : Options) (x : Double) : Except Fault Bool := do
  if x.isNaN || x.compareInt? 0 == some .lt || !x.isWhole then return false
  return (Number.real x).le (← options.exactLimit)

/-- The exact side of a function. -/
def exactCall (options : Options) (name : String) (x : Double) : Except Fault (Option RadicalSum) := do
  if name = "sqrt" then
    if ← isExactRadicand options x then
      let r ← Radical.simplify (.real x)
      some <$> RadicalSum.ofTerms [⟨r.coefficient, r.radicand⟩] 0
    else return none
  else return none

/-! ## Trees -/

/-- The worth of a numeral; a whole one is exact. -/
def ofNumeral (x : Double) : Except Stop Worth := do
  let x ← checked x
  if x.isWhole then return ⟨x, some (← (RadicalSum.ofTerms [] (.real x) : Except Fault _))⟩
  else return ⟨x, none⟩

/-- The worth of a variable. -/
def ofVariable (values : Entries String Number) (name : String) : Except Stop Worth := do
  match values.get? name with
  | none => refuse (.undefinedVariables [name])
  | some a => return ⟨← (a.toDouble : Except Fault _), none⟩

/-- The worth of a negation. -/
def negated (w : Worth) : Except Stop Worth := do
  return ⟨w.value.neg, ← (w.exact.mapM RadicalSum.negate : Except Fault _)⟩

/-- The worth of a binary operation. An exact side with a number that is not finite is dropped. -/
def combined (lib : Elementary) (op : BinaryOp) (left right : Worth) : Except Stop Worth := do
  let result ← decimalBinary lib op left.value right.value
  let exact ← (exactBinary lib op left right : Except Fault _)
  return ⟨← checked result, exact.filter RadicalSum.isFinite⟩

/-- The worth of a function. -/
def called (lib : Elementary) (options : Options) (name : String) (argument : Worth) : Except Stop Worth := do
  let result ← decimalCall lib options.degrees name argument.value
  let exact ← (exactCall options name argument.value : Except Fault _)
  return ⟨← checked result, exact⟩

/-- The worth of a tree. -/
def ofTree (lib : Elementary) (values : Entries String Number) (options : Options) : Tree → Except Stop Worth
  | .number x => ofNumeral x
  | .variable name => ofVariable values name
  | .negate t => do negated (← ofTree lib values options t)
  | .binary op l r => do
    let left ← ofTree lib values options l
    let right ← ofTree lib values options r
    combined lib op left right
  | .call f t => do called lib options f (← ofTree lib values options t)

/-! ## Texts -/

/-- The result of an evaluation. -/
inductive Result where
  | value (w : Worth)
  | failure (code message : String)

/-- The worth of a text: problems of the text come first, then variables without a value, then the tree. -/
def worth (lib : Elementary) (values : Entries String Number) (options : Options) (cs : List Char) :
    Except (String × String) Worth :=
  match Parsed.ofText cs with
  | .rejected _ r => .error (r.code, r.message)
  | .accepted _ t =>
    let stop (s : Stop) := (s.code, s.message)
    match t.variableNames.filter fun name => !values.has name with
    | name :: names => .error (stop (.problem (.undefinedVariables (name :: names))))
    | [] => (ofTree lib values options t).mapError stop

/-- The result of evaluating a text. -/
def ofText (lib : Elementary) (values : Entries String Number) (options : Options) (cs : List Char) : Result :=
  match worth lib values options cs with
  | .ok w => .value w
  | .error (code, message) => .failure code message

/-- The description of a result that messages and logs show. -/
def Result.describe : Result → String
  | value w =>
    "EvaluationResult(value=" ++ w.value.text ++ ", radical_form=" ++
      (w.exact.map RadicalSum.text).getD "None" ++ ")"
  | failure code message => "EvaluationResult(error=" ++ quoted message ++ ", code=" ++ quoted code ++ ")"

end Evaluation

end Surd
