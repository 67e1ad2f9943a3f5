import Surd.Proofs.Evaluation.Finite

/-!
# The decimal side

Without its exact sides, evaluation is a walk over doubles. An exact side never changes the double that a tree is worth,
nor the error that its doubles end in, but it can end the evaluation by itself: where a product or a power of exact sides
meets a whole number that has no double, there is no result, whatever the doubles have.
-/

namespace Surd.Evaluation

variable {lib : Elementary} {values : Entries String Number} {options : Options} {t l r : Tree}

/-- The double of a tree, by the rules for doubles alone. -/
def decimalOf (lib : Elementary) (values : Entries String Number) (degrees : Bool) : Tree → Except Stop Double
  | .number x => checked x
  | .variable name => decimalVariable values name
  | .negate t => do return (← decimalOf lib values degrees t).neg
  | .binary op l r => do
    let x ← decimalOf lib values degrees l
    let y ← decimalOf lib values degrees r
    checked (← decimalBinary lib op x y)
  | .call f t => do
    let x ← decimalOf lib values degrees t
    checked (← decimalCall lib degrees f x)

/-- The double of a text: problems of the text come first, then variables without a value, then the tree. -/
def decimalOfText (lib : Elementary) (values : Entries String Number) (degrees : Bool) (cs : List Char) :
    Except (String × String) Double :=
  match Parsed.ofText cs with
  | .rejected _ r => .error (r.code, r.message)
  | .accepted _ t =>
    let stop (s : Stop) := (s.code, s.message)
    match t.variableNames.filter fun name => !values.has name with
    | name :: names => .error (stop (.problem (.undefinedVariables (name :: names))))
    | [] => (decimalOf lib values degrees t).mapError stop

/-- The double of a result, or its error. -/
def Result.decimal : Result → Except (String × String) Double
  | value w => .ok w.value
  | failure code message => .error (code, message)

/-- Evaluation comes to a product or a power in the tree whose exact side overflows. -/
def OverflowsWithin (lib : Elementary) (values : Entries String Number) (options : Options) (t : Tree) : Prop :=
  ∃ op l r, .binary op l r ∈ t.subtrees ∧
    ∃ left right, ofTree lib values options l = .ok left ∧ ofTree lib values options r = .ok right ∧
      Overflows lib op left right

/-- The overflow of an exact side is the end of the evaluation. -/
structure Overflown (lib : Elementary) (values : Entries String Number) (options : Options) (t : Tree) : Prop where
  stopped : ofTree lib values options t = .error (.fault .integerTooLarge)
  within : OverflowsWithin lib values options t

theorem OverflowsWithin.mono (h : OverflowsWithin lib values options t) {u : Tree}
    (sub : ∀ v ∈ t.subtrees, v ∈ u.subtrees) : OverflowsWithin lib values options u := by
  obtain ⟨op, l, r, inside, overflows⟩ := h
  exact ⟨op, l, r, sub _ inside, overflows⟩

theorem overflown_binary {op : BinaryOp} {left right : Worth} (hl : ofTree lib values options l = .ok left)
    (hr : ofTree lib values options r = .ok right) (found : ∃ x, decimalBinary lib op left.value right.value = .ok x)
    (overflows : Overflows lib op left right) : Overflown lib values options (.binary op l r) := by
  obtain ⟨x, hx⟩ := found
  constructor
  · rw [ofTree, hl, hr]
    show combined lib op left right = _
    rw [combined, hx, overflows.1]
    rfl
  · exact ⟨op, l, r, Tree.self_mem_subtrees _, left, right, hl, hr, overflows⟩

/-- A tree is worth its double with a finite exact side, or an exact side ends the evaluation. -/
theorem ofTree_carries {limit : Number} (hlimit : options.exactLimit = .ok limit) (t : Tree) :
    Carries (ofTree lib values options t) (decimalOf lib values options.degrees t) ∨
      Overflown lib values options t := by
  induction t with
  | number x => exact .inl (ofNumeral_carries x)
  | «variable» name => exact .inl (ofVariable_carries values name)
  | negate t ih =>
      obtain carries | ⟨stopped, within⟩ := ih
      · have step := carries.bind (f := negated) (g := fun x => .ok x.neg) (R := fun _ => False)
          fun w hw => .inl (negated_carries hw)
        obtain carries | ⟨_, _, ⟨⟩⟩ := step
        exact .inl carries
      · exact .inr ⟨by rw [ofTree, stopped]; rfl, within.mono fun v hv => List.mem_cons_of_mem _ hv⟩
  | call f t ih =>
      obtain carries | ⟨stopped, within⟩ := ih
      · have step := carries.bind (f := called lib options f)
          (g := fun x => decimalCall lib options.degrees f x >>= checked)
          (R := fun _ => ∃ f, options.exactLimit = .error f)
          fun w _ => (called_carries options f w).imp_right fun h => h.2.imp fun _ missing => missing.1
        obtain carries | ⟨_, _, _, missing⟩ := step
        · exact .inl carries
        · rw [hlimit] at missing
          cases missing
      · exact .inr ⟨by rw [ofTree, stopped]; rfl, within.mono fun v hv => List.mem_cons_of_mem _ hv⟩
  | binary op l r ihl ihr =>
      obtain carries | ⟨stopped, within⟩ := ihl
      -- The left worth is there; what ends the evaluation after it is the right operand or the operation itself.
      · have step := carries.bind
          (f := fun left => ofTree lib values options r >>= combined lib op left)
          (g := fun x => decimalOf lib values options.degrees r >>= fun y => decimalBinary lib op x y >>= checked)
          (R := fun left => Overflown lib values options r ∨ ∃ right, ofTree lib values options r = .ok right ∧
            (∃ x, decimalBinary lib op left.value right.value = .ok x) ∧ Overflows lib op left right) ?_
        · refine step.imp_right ?_
          rintro ⟨left, hl, ⟨stopped, within⟩ | ⟨right, hr, found, overflows⟩⟩
          · refine ⟨by rw [ofTree, hl, stopped]; rfl, within.mono fun v hv => ?_⟩
            exact List.mem_cons_of_mem _ (List.mem_append_right _ hv)
          · exact overflown_binary hl hr found overflows
        · intro left hleft
          obtain carries | overflown := ihr
          · exact (carries.bind fun right hright => combined_carries hleft hright op).imp_right .inr
          · exact .inr (.inl overflown)
      · refine .inr ⟨by rw [ofTree, stopped]; rfl, within.mono fun v hv => ?_⟩
        exact List.mem_cons_of_mem _ (List.mem_append_left _ hv)

/-- The result of a text is that of its doubles, with the same value or the same error, or the exact side of a product
or a power ends the evaluation. -/
theorem ofText_decimal (lib : Elementary) (values : Entries String Number) (degrees : Bool) (limit : Number)
    (cs : List Char) :
    (ofText lib values ⟨degrees, .ok limit⟩ cs).decimal = decimalOfText lib values degrees cs ∨
      ofText lib values ⟨degrees, .ok limit⟩ cs =
          .failure "9999" "Unexpected Error: int too large to convert to float" ∧
        ∃ tokens t, Parsed.ofText cs = .accepted tokens t ∧ OverflowsWithin lib values ⟨degrees, .ok limit⟩ t := by
  rw [ofText, worth, decimalOfText]
  cases Parsed.ofText cs with
  | rejected tokens reason => exact .inl rfl
  | accepted tokens t =>
      dsimp only
      cases t.variableNames.filter fun name => !values.has name with
      | cons name names => exact .inl rfl
      | nil =>
          have carried : Carries (ofTree lib values ⟨degrees, .ok limit⟩ t) (decimalOf lib values degrees t) ∨
              Overflown lib values ⟨degrees, .ok limit⟩ t := ofTree_carries rfl t
          obtain ⟨o, _, carries⟩ | ⟨stopped, within⟩ := carried
          · refine .inl ?_
            rw [carries]
            cases decimalOf lib values degrees t <;> rfl
          · refine .inr ⟨?_, tokens, t, rfl, within⟩
            rw [stopped]
            rfl

/-! ### A product without a result -/

/-- One half. -/
def half : Double := (Double.ofInt 1).div (.ofInt 2)

/-- The tree of `2 ^ (52 * (n + 1))`, a product of whole numerals. -/
def shiftTree : Nat → Tree
  | 0 => .number (.ofInt (2 ^ 52))
  | n + 1 => .binary .mul (shiftTree n) (.number (.ofInt (2 ^ 52)))

/-- The tree of `2 ^ 520 * √2 + 0.5`. -/
def hugeRoot : Tree := .binary .add (.binary .mul (shiftTree 9) sqrtTwo) (.number half)

/-- The sum `2 ^ 520 * √2 + 0.5`, with a whole coefficient and a double beside it. -/
def hugeSum : RadicalSum := ⟨[⟨.int (2 ^ 520), 2⟩], .real half⟩

theorem ofTree_hugeRoot :
    Returns (ofTree .machine [] sqrtTwoOptions hugeRoot) fun w => w.exact = some hugeSum := by
  obtain ⟨⟨_, _⟩, root, rfl, rfl⟩ := ofTree_sqrtTwo
  simp only [hugeRoot, ofTree, root]
  decide +kernel

/-- The square of `2 ^ 520 * √2 + 0.5` is an overflow of its double, and ends as a fault of its exact side: the whole
number `2 ^ 1041` is added to a double. -/
theorem ofTree_squaredHugeRoot :
    (decimalOf .machine [] false (.binary .mul hugeRoot hugeRoot)).mapError Stop.code = .error "3026" ∧
    ofTree .machine [] sqrtTwoOptions (.binary .mul hugeRoot hugeRoot) = .error (.fault .integerTooLarge) := by
  constructor
  · decide +kernel
  · obtain ⟨w, hw, exact⟩ := ofTree_hugeRoot
    have fault : exactBinary .machine .mul w w = .error .integerTooLarge := by
      rw [exactBinary, exact]
      show some <$> hugeSum.multiply hugeSum = _
      decide +kernel
    have mixed : ¬hugeSum.Integral := by
      rintro ⟨⟨k, hk⟩, _⟩
      cases hk
    have overflows : Overflows .machine .mul w w :=
      ⟨fault, .inl ⟨rfl, hugeSum, exact, hugeSum, exact, fun integral => mixed integral.1⟩⟩
    exact (overflown_binary hw hw ⟨_, rfl⟩ overflows).stopped

end Surd.Evaluation
