import Surd.Evaluation

/-!
# Trees with gaps

A sketch is a tree in which nodes may be missing or be something else than a node. It is evaluated as a tree is,
by the same rules at every node, and a gap is a problem where the evaluation comes to it.
-/

namespace Surd

/-- An expression tree with gaps. -/
inductive Sketch where
  /-- Nothing, or a text, where a node should be. -/
  | gap (text : Option String)
  | number (value : Double)
  | variable (name : String)
  | negate (operand : Sketch)
  | binary (op : BinaryOp) (left right : Sketch)
  | call (function : String) (argument : Sketch)

namespace Sketch

/-- A tree as a sketch without gaps. -/
def ofTree : Tree → Sketch
  | .number x => number x
  | .variable name => .variable name
  | .negate t => negate (ofTree t)
  | .binary op l r => binary op (ofTree l) (ofTree r)
  | .call f t => call f (ofTree t)

/-- The worth of a sketch. A binary operation without a left operand is refused before its right one is looked
at. -/
def worth (lib : Elementary) (values : Entries String Number) (options : Options) : Sketch → Except Stop Worth
  | gap text => refuse (.invalidNode ((text.map quoted).getD "None"))
  | number x => Evaluation.ofNumeral x
  | .variable name => Evaluation.ofVariable values name
  | negate t => do Evaluation.negated (← worth lib values options t)
  | binary op (gap none) _ => refuse (.invalidBinary op.symbol)
  | binary op l r => do
    let left ← worth lib values options l
    let right ← worth lib values options r
    Evaluation.combined lib op left right
  | call f t => do Evaluation.called lib options f (← worth lib values options t)

/-- A sketch without gaps is worth what its tree is. -/
theorem worth_ofTree (lib : Elementary) (values : Entries String Number) (options : Options) (t : Tree) :
    worth lib values options (ofTree t) = Evaluation.ofTree lib values options t := by
  induction t with
  | number x => rfl
  | «variable» name => rfl
  | negate t ih => simp only [ofTree, worth, Evaluation.ofTree, ih]
  | binary op l r ihl ihr =>
    have h : worth lib values options (binary op (ofTree l) (ofTree r)) = (do
        let left ← worth lib values options (ofTree l)
        let right ← worth lib values options (ofTree r)
        Evaluation.combined lib op left right) := by
      cases l <;> rfl
    simp only [ofTree, h, ihl, ihr, Evaluation.ofTree]
  | call f t ih => simp only [ofTree, worth, Evaluation.ofTree, ih]

end Sketch

end Surd
