import Surd.Proofs.Json.RoundTrip
import Mathlib.Data.List.TakeWhile

/-!
# The beginning of a JSON text

A text that is nested too deeply is so whatever it goes on with (`tooDeep_of_beginning`), so the beginning of a text
that can be read is not nested too deeply, wherever the text breaks off. The reader goes over both texts in the same way
until the shorter one ends: what it has read of a text is what it reads of a longer one, if the text goes on after it
with a character that ends a number (`Extends`).
-/

namespace Surd.Json

variable {steps steps' nesting n : Nat} {s : Bool} {v : Number} {j : Json} {es : Entries CodePoints Json}
  {p : CodePoint} {body : CodePoints} {cs ds rest tail after more : List Char}

/-- Something is left, and it does not go on with a number in front of it. -/
def Settled (rest : List Char) : Prop := rest ≠ [] ∧ EndsNumber rest

/-! ## Texts in quotes -/

theorem unit?_more (h : unit? cs = some (n, rest)) : unit? (cs ++ more) = some (n, rest ++ more) := by
  match cs, h with
  | a :: b :: c :: d :: tail, h =>
      simp only [unit?, Option.bind_eq_bind, Option.bind_eq_some_iff] at h
      obtain ⟨x, ha, y, hb, z, hc, w, hd, h⟩ := h
      obtain ⟨rfl, rfl⟩ := Option.some.inj h
      simp only [List.cons_append, unit?, ha, hb, hc, hd]
      rfl

theorem exists_escape_of_append (some_left : tail ≠ []) (open_end : tail ≠ ['\\'])
    (h : tail ++ more = '\\' :: 'u' :: rest) : ∃ low, tail = '\\' :: 'u' :: low := by
  match tail, some_left, open_end with
  | [c], _, open_end =>
      obtain ⟨same, _⟩ := List.cons.inj h
      exact absurd (congrArg (· :: []) same) open_end
  | c :: d :: low, _, _ =>
      obtain ⟨first, h⟩ := List.cons.inj h
      obtain ⟨second, _⟩ := List.cons.inj h
      exact ⟨low, by rw [first, second]⟩

/-- Whether a second escape follows shows in the two characters after the first. -/
theorem escapedPoint?_more (h : escapedPoint? cs = some (p, tail)) (some_left : tail ≠ []) (open_end : tail ≠ ['\\']) :
    escapedPoint? (cs ++ more) = some (p, tail ++ more) := by
  rw [escapedPoint?] at h ⊢
  obtain ⟨⟨high, rest⟩, first, h⟩ := Option.bind_eq_some_iff.mp h
  rw [unit?_more first]
  show (if isHighUnit high = true then _ else _) = _
  dsimp only at h
  split at h
  · rename_i half
    rw [if_pos half]
    split at h
    · obtain ⟨⟨low, after⟩, second, h⟩ := Option.bind_eq_some_iff.mp h
      show (unit? (_ ++ more) >>= _) = _
      rw [unit?_more second]
      show (if isLowUnit low = true then _ else _) = _
      dsimp only at h
      split at h
      · rename_i pair
        obtain ⟨rfl, rfl⟩ := Prod.mk.inj (Option.some.inj h)
        rw [if_pos pair]
        rfl
      · rename_i alone
        obtain ⟨rfl, rfl⟩ := Option.some.inj h
        rw [if_neg alone]
        rfl
    · rename_i alone
      obtain ⟨rfl, rfl⟩ := Option.some.inj h
      split
      · rename_i second_escape
        obtain ⟨low, escape⟩ := exists_escape_of_append some_left open_end second_escape
        exact absurd escape (alone low)
      · rfl
  · rename_i whole
    obtain ⟨rfl, rfl⟩ := Option.some.inj h
    rw [if_neg whole]
    rfl

theorem textBody?_open (steps : Nat) : textBody? steps [] = none ∧ textBody? steps ['\\'] = none := by
  cases steps with
  | zero => exact ⟨rfl, rfl⟩
  | succ steps => exact ⟨rfl, rfl⟩

/-- A text that is closed is read in the same way whatever follows. -/
theorem textBody?_more (h : textBody? steps cs = some (body, after)) (enough : steps ≤ steps') :
    textBody? steps' (cs ++ more) = some (body, after ++ more) := by
  induction steps generalizing steps' cs body with
  | zero => cases h
  | succ steps ih =>
      obtain ⟨k, rfl⟩ := Nat.exists_eq_add_of_le' (Nat.zero_lt_of_lt enough)
      have enough : steps ≤ k := by omega
      unfold textBody? at h
      split at h
      · cases h
      · obtain ⟨rfl, rfl⟩ := Option.some.inj h
        rfl
      · obtain ⟨⟨p, tail⟩, point, h⟩ := Option.bind_eq_some_iff.mp h
        obtain ⟨⟨body, _⟩, read, h⟩ := Option.bind_eq_some_iff.mp h
        obtain ⟨rfl, rfl⟩ := Option.some.inj h
        have some_left : tail ≠ [] := by
          rintro rfl
          cases (textBody?_open steps).1.symm.trans read
        have open_end : tail ≠ ['\\'] := by
          rintro rfl
          cases (textBody?_open steps).2.symm.trans read
        exact textBody?_unicode (escapedPoint?_more point some_left open_end) (ih read enough)
      · rename_i letter
        obtain ⟨c, stands, h⟩ := Option.bind_eq_some_iff.mp h
        obtain ⟨⟨body, _⟩, read, h⟩ := Option.bind_eq_some_iff.mp h
        obtain ⟨rfl, rfl⟩ := Option.some.inj h
        have half := (not_half_ofChar c).1
        have longer := textBody?_escaped (.short stands) (fun high => absurd high (half ▸ Bool.false_ne_true))
          (ih read enough)
        exact longer
      · rename_i c _ quote _ _
        split at h
        · cases h
        · rename_i plain
          obtain ⟨⟨body, _⟩, read, h⟩ := Option.bind_eq_some_iff.mp h
          obtain ⟨rfl, rfl⟩ := Option.some.inj h
          obtain ⟨backslash, control⟩ := not_or.mp plain
          have half := (not_half_ofChar c).1
          have longer := textBody?_escaped (.plain quote backslash (not_lt.mp control))
            (fun high => absurd high (half ▸ Bool.false_ne_true)) (ih read enough)
          exact longer

/-! ## Numbers -/

theorem digitRun_more (h : digitRun cs = (ds, rest)) (some_left : rest ≠ []) :
    digitRun (cs ++ more) = (ds, rest ++ more) := by
  obtain ⟨rfl, rfl⟩ := Prod.mk.inj h
  have digit : ∀ c ∈ cs.takeWhile isDigit, isDigit c = true := fun c hc => List.mem_takeWhile_imp hc
  have ends : ∀ c ∈ (cs.dropWhile isDigit ++ more).head?, isDigit c = false := by
    rw [List.head?_append_of_ne_nil _ some_left]
    intro c hc
    have stops := List.head?_dropWhile_not isDigit cs
    rwa [Option.mem_def.mp hc] at stops
  have read := digitRun_append digit ends
  rwa [← List.append_assoc, List.takeWhile_append_dropWhile] at read

theorem signRun_more (h : signRun cs = (s, rest)) (some_left : rest ≠ []) :
    signRun (cs ++ more) = (s, rest ++ more) := by
  unfold signRun at h
  split at h
  · obtain ⟨rfl, rfl⟩ := Prod.mk.inj h
    rfl
  · obtain ⟨rfl, rfl⟩ := Prod.mk.inj h
    rfl
  · rename_i minus plus
    obtain ⟨rfl, rfl⟩ := Prod.mk.inj h
    cases cs with
    | nil => exact absurd rfl some_left
    | cons c cs =>
        rw [List.cons_append, signRun]
        · rintro _ ⟨⟩
          exact minus cs rfl
        · rintro _ ⟨⟩
          exact plus cs rfl

theorem fractionPart_more (h : fractionPart cs = (ds, rest)) (some_left : rest ≠ []) (point : rest.head? ≠ some '.') :
    fractionPart (cs ++ more) = (ds, rest ++ more) := by
  unfold fractionPart at h
  split at h
  · rename_i tail
    cases run : digitRun tail with
    | mk digits after =>
        rw [run] at h
        cases digits with
        | nil =>
            obtain ⟨_, rfl⟩ := Prod.mk.inj h
            exact absurd rfl point
        | cons =>
            obtain ⟨rfl, rfl⟩ := Prod.mk.inj h
            rw [List.cons_append, fractionPart, digitRun_more run some_left]
  · obtain ⟨rfl, rfl⟩ := Prod.mk.inj h
    apply fractionPart_of_ne
    rw [List.head?_append_of_ne_nil _ some_left]
    rintro _ hc rfl
    exact point hc

/-- The mark of an exponent without digits is left, and it settles nothing. -/
theorem exponentPart_more {e : Option Int} (h : exponentPart cs = (e, rest)) (left : Settled rest) :
    exponentPart (cs ++ more) = (e, rest ++ more) := by
  obtain ⟨some_left, ends⟩ := left
  cases cs with
  | nil =>
      obtain ⟨_, rfl⟩ := Prod.mk.inj h
      exact absurd rfl some_left
  | cons mark tail =>
      rw [exponentPart] at h
      rw [List.cons_append, exponentPart]
      split_ifs at h ⊢ with marked
      · cases sign : signRun tail with
        | mk negative digits =>
            rw [sign] at h
            dsimp only at h
            cases run : digitRun digits with
            | mk ds after =>
                rw [run] at h
                cases ds with
                | nil =>
                    obtain ⟨_, rfl⟩ := Prod.mk.inj h
                    have unmarked := (ends mark rfl).2
                    obtain rfl | rfl := marked <;> exact absurd (by decide) unmarked
                | cons =>
                    obtain ⟨rfl, rfl⟩ := Prod.mk.inj h
                    have some_digit : digits ≠ [] := by
                      rintro rfl
                      cases run
                    rw [signRun_more sign some_digit]
                    dsimp only
                    rw [digitRun_more run some_left]
      · obtain ⟨rfl, rfl⟩ := Prod.mk.inj h
        rfl

theorem exponentPart_left {e : Option Int} (h : exponentPart cs = (e, rest)) (left : Settled rest) :
    cs ≠ [] ∧ ∀ c ∈ cs.head?, isDigit c = false ∧ c ≠ '.' := by
  obtain ⟨some_left, ends⟩ := left
  cases cs with
  | nil =>
      obtain ⟨_, rfl⟩ := Prod.mk.inj h
      exact absurd rfl some_left
  | cons c cs =>
      refine ⟨List.cons_ne_nil c cs, ?_⟩
      rintro _ ⟨⟩
      rw [exponentPart] at h
      split_ifs at h with marked
      · obtain rfl | rfl := marked <;> decide
      · obtain ⟨_, rfl⟩ := Prod.mk.inj h
        obtain ⟨no_digit, other⟩ := ends c rfl
        exact ⟨no_digit, fun point => other (point ▸ List.mem_cons_self)⟩

theorem fractionPart_left (h : fractionPart cs = (ds, rest)) (some_left : rest ≠ [])
    (ends : ∀ c ∈ rest.head?, isDigit c = false) : cs ≠ [] ∧ ∀ c ∈ cs.head?, isDigit c = false := by
  unfold fractionPart at h
  split at h
  · exact ⟨List.cons_ne_nil _ _, isDigit_head_cons rfl⟩
  · obtain ⟨rfl, rfl⟩ := Prod.mk.inj h
    exact ⟨some_left, ends⟩

theorem wholePart_more {run whole : List Char} (h : wholePart run tail = (whole, rest)) :
    wholePart run (tail ++ more) = (whole, rest ++ more) := by
  unfold wholePart at h ⊢
  split at h
  · obtain ⟨rfl, rfl⟩ := Prod.mk.inj h
    rw [List.append_assoc]
  · obtain ⟨rfl, rfl⟩ := Prod.mk.inj h
    rfl

theorem wholePart_left {run whole : List Char} (h : wholePart run tail = (whole, rest)) (some_left : rest ≠ [])
    (digit : ∀ c ∈ run, isDigit c = true) (ends : ∀ c ∈ rest.head?, isDigit c = false) : tail ≠ [] := by
  rintro rfl
  obtain ⟨c, hc⟩ := Option.isSome_iff_exists.mp (List.isSome_head?.mpr some_left)
  have in_run : c ∈ run := by
    unfold wholePart at h
    split at h
    · obtain ⟨_, rfl⟩ := Prod.mk.inj h
      rw [List.append_nil] at hc
      exact List.mem_cons_of_mem _ (List.mem_of_mem_head? hc)
    · obtain ⟨_, rfl⟩ := Prod.mk.inj h
      exact absurd rfl some_left
  exact Bool.false_ne_true ((ends c hc).symm.trans (digit c in_run))

/-- The number with a whole part, digits after a point and an exponent. -/
def ofParts? (s : Bool) (whole ds : List Char) (e : Option Int) : Option Number :=
  if whole.isEmpty then none
  else if ds.isEmpty && e.isNone then some (.int (if s then -digitsValue whole else digitsValue whole))
  else some (.real (Decimal.toDouble ⟨s, digitsValue (whole ++ ds), e.getD 0 - ds.length⟩))

theorem unsigned?_of_parts {run whole behind tail' : List Char} {e : Option Int} (digits : digitRun cs = (run, tail))
    (front : wholePart run tail = (whole, behind)) (fraction : fractionPart behind = (ds, tail'))
    (exponent : exponentPart tail' = (e, after)) : unsigned? s cs = (ofParts? s whole ds e).map (·, after) := by
  rw [unsigned?, digits]
  dsimp only
  rw [front]
  dsimp only
  rw [fraction]
  dsimp only
  rw [exponent, ofParts?]
  split_ifs <;> rfl

/-- A number that is settled is read in the same way whatever follows. -/
theorem unsigned?_more (h : unsigned? s cs = some (v, rest)) (left : Settled rest) :
    unsigned? s (cs ++ more) = some (v, rest ++ more) := by
  obtain ⟨⟨run, tail⟩, digits⟩ : ∃ r, digitRun cs = r := ⟨_, rfl⟩
  obtain ⟨⟨whole, behind⟩, front⟩ : ∃ r, wholePart run tail = r := ⟨_, rfl⟩
  obtain ⟨⟨ds, tail'⟩, fraction⟩ : ∃ r, fractionPart behind = r := ⟨_, rfl⟩
  obtain ⟨⟨e, after⟩, exponent⟩ : ∃ r, exponentPart tail' = r := ⟨_, rfl⟩
  rw [unsigned?_of_parts digits front fraction exponent] at h
  obtain ⟨v', parts, same⟩ := Option.map_eq_some_iff.mp h
  obtain ⟨rfl, rfl⟩ := Prod.mk.inj same
  obtain ⟨left_of_exponent, no_point⟩ := exponentPart_left exponent left
  obtain ⟨left_of_fraction, no_digit⟩ :=
    fractionPart_left fraction left_of_exponent fun c hc => (no_point c hc).1
  have digit : ∀ c ∈ run, isDigit c = true := by
    obtain ⟨rfl, _⟩ := Prod.mk.inj digits
    exact fun c hc => List.mem_takeWhile_imp hc
  have left_of_front := wholePart_left front left_of_fraction digit no_digit
  rw [unsigned?_of_parts (digitRun_more digits left_of_front) (wholePart_more front)
    (fractionPart_more fraction left_of_exponent fun point => (no_point _ point).2 rfl)
    (exponentPart_more exponent left), parts]
  rfl

theorem after?_more {word : String} (h : after? word cs = some rest) :
    after? word (cs ++ more) = some (rest ++ more) := by
  rw [after?, List.isPrefixOf?_eq_some_iff_append_eq] at h ⊢
  rw [← h, List.append_assoc]

/-- A name or a number that is settled is read in the same way whatever follows. -/
theorem scalar?_more (h : scalar? cs = some (j, rest)) (left : Settled rest) :
    scalar? (cs ++ more) = some (j, rest ++ more) := by
  have word {w : String} {k : Json} {r : Json × List Char} (h : (after? w cs).map (k, ·) = some r) :
      (after? w (cs ++ more)).map (k, ·) = some (r.1, r.2 ++ more) := by
    obtain ⟨tail, named, rfl⟩ := Option.map_eq_some_iff.mp h
    rw [after?_more named]
    rfl
  unfold scalar? at h
  split at h
  iterate 6 exact word h
  · obtain ⟨⟨v, tail⟩, read, same⟩ := Option.map_eq_some_iff.mp h
    obtain ⟨rfl, rfl⟩ := Prod.mk.inj same
    exact scalar?_signed (unsigned?_more read left)
  · obtain ⟨⟨v, tail⟩, read, same⟩ := Option.map_eq_some_iff.mp h
    obtain ⟨rfl, rfl⟩ := Prod.mk.inj same
    exact scalar?_signed (unsigned?_more read left)

/-! ## Blanks -/

theorem skipBlanks_more {c : Char} (h : skipBlanks cs = c :: tail) : skipBlanks (cs ++ more) = c :: (tail ++ more) := by
  rw [skipBlanks, List.dropWhile_append, ← skipBlanks, h]
  rfl

theorem settled_of_skipBlanks {c : Char} (h : skipBlanks cs = c :: tail)
    (ends : isDigit c = false ∧ c ∉ ['.', 'e', 'E']) : Settled cs := by
  have parts : cs.takeWhile isJsonBlank ++ c :: tail = cs := h ▸ List.takeWhile_append_dropWhile
  constructor
  · rintro rfl
    cases h
  · rw [← parts]
    exact endsNumber_blanks (fun c hc => List.mem_takeWhile_imp hc) (endsNumber_cons ends tail)

/-! ## Values -/

/-- What is read of a text and of a longer one that goes on with `more`. -/
structure Extends {α : Type} (more : List Char) (a b : Except Refusal (α × List Char)) : Prop where
  deep : a = .error .tooDeep → b = .error .tooDeep
  settled : ∀ x rest, a = .ok (x, rest) → Settled rest → b = .ok (x, rest ++ more)

namespace Extends

variable {α β : Type} {a b : Except Refusal (α × List Char)}

theorem malformed : Extends more (.error .malformed) b := ⟨nofun, nofun⟩

theorem ok (x : α) (rest : List Char) : Extends more (.ok (x, rest)) (.ok (x, rest ++ more)) := by
  refine ⟨nofun, ?_⟩
  rintro _ _ ⟨⟩ _
  rfl

theorem orMalformed {o o' : Option (α × List Char)}
    (h : ∀ x rest, o = some (x, rest) → Settled rest → o' = some (x, rest ++ more)) :
    Extends more (Json.orMalformed o) (Json.orMalformed o') := by
  cases o with
  | none => exact malformed
  | some r =>
      refine ⟨nofun, ?_⟩
      rintro x rest ⟨⟩ left
      rw [h x rest rfl left]
      rfl

theorem map (h : Extends more a b) (f : α → β) :
    Extends more (a >>= fun r => .ok (f r.1, r.2)) (b >>= fun r => .ok (f r.1, r.2)) := by
  match a, h with
  | .ok (x, rest), h =>
      refine ⟨nofun, ?_⟩
      rintro _ _ ⟨⟩ left
      rw [h.settled x rest rfl left]
      rfl
  | .error .malformed, _ => exact malformed
  | .error .tooDeep, h =>
      rw [h.deep rfl]
      exact ⟨id, nofun⟩

/-- What goes on after a settled value, or is malformed where it is not settled. -/
theorem bind {f g : α × List Char → Except Refusal (β × List Char)} (h : Extends more a b)
    (next : ∀ x rest, f (x, rest) = .error .malformed ∨
      Settled rest ∧ Extends more (f (x, rest)) (g (x, rest ++ more))) : Extends more (a >>= f) (b >>= g) := by
  match a, h with
  | .ok (x, rest), h =>
      obtain unread | ⟨left, further⟩ := next x rest
      · rw [ok_bind, unread]
        exact malformed
      · rw [h.settled x rest rfl left]
        exact further
  | .error .malformed, _ => exact malformed
  | .error .tooDeep, h =>
      rw [h.deep rfl]
      exact ⟨id, nofun⟩

/-- What is read behind blanks, if it is not read of nothing. -/
theorem skip {r r' : List Char → Except Refusal (α × List Char)} (unread : r [] = .error .malformed)
    (h : ∀ cs, Extends more (r cs) (r' (cs ++ more))) (cs : List Char) :
    Extends more (r (skipBlanks cs)) (r' (skipBlanks (cs ++ more))) := by
  cases front : skipBlanks cs with
  | nil =>
      rw [unread]
      exact malformed
  | cons c tail =>
      rw [skipBlanks_more front]
      exact h (c :: tail)

end Extends

theorem value_nil (steps nesting : Nat) : value steps nesting [] = .error .malformed := by
  cases steps <;> rfl

theorem items_nil (steps nesting : Nat) : items steps nesting [] = .error .malformed := by
  cases steps with
  | zero => rfl
  | succ steps =>
      rw [items, value_nil]
      rfl

theorem members_nil (steps nesting : Nat) (es : Entries CodePoints Json) :
    members steps nesting es [] = .error .malformed := by
  cases steps <;> rfl

theorem value_closed_bracket (close : skipBlanks cs = ']' :: tail) :
    value (steps + 1) (nesting + 1) ('[' :: cs) = .ok (array [], tail) := by
  rw [value]
  exact close

theorem value_closed_brace (close : skipBlanks cs = '\x7d' :: tail) :
    value (steps + 1) (nesting + 1) ('\x7b' :: cs) = .ok (object [], tail) := by
  rw [value]
  exact close

theorem extends_bracket
    (h : ∀ cs, Extends more (items steps nesting cs) (items steps' nesting (cs ++ more))) (cs : List Char) :
    Extends more (value (steps + 1) (nesting + 1) ('[' :: cs))
      (value (steps' + 1) (nesting + 1) ('[' :: (cs ++ more))) := by
  cases front : skipBlanks cs with
  | nil =>
      rw [value_bracket (by simp [front]), front, items_nil]
      exact .malformed
  | cons c tail =>
      by_cases close : c = ']'
      · subst close
        rw [value_closed_bracket front, value_closed_bracket (skipBlanks_more front)]
        exact .ok _ tail
      · rw [value_bracket (by simp [front, close]), value_bracket (by simp [skipBlanks_more front, close]), front,
          skipBlanks_more front]
        exact (h (c :: tail)).map array

theorem extends_brace
    (h : ∀ cs, Extends more (members steps nesting [] cs) (members steps' nesting [] (cs ++ more))) (cs : List Char) :
    Extends more (value (steps + 1) (nesting + 1) ('\x7b' :: cs))
      (value (steps' + 1) (nesting + 1) ('\x7b' :: (cs ++ more))) := by
  cases front : skipBlanks cs with
  | nil =>
      rw [value_brace (by simp [front]), front, members_nil]
      exact .malformed
  | cons c tail =>
      by_cases close : c = '\x7d'
      · subst close
        rw [value_closed_brace front, value_closed_brace (skipBlanks_more front)]
        exact .ok _ tail
      · rw [value_brace (by simp [front, close]), value_brace (by simp [skipBlanks_more front, close]), front,
          skipBlanks_more front]
        exact (h (c :: tail)).map object

mutual
theorem extends_value {steps steps' : Nat} (enough : steps ≤ steps') (nesting : Nat) (cs more : List Char) :
    Extends more (value steps nesting cs) (value steps' nesting (cs ++ more)) := by
  cases steps with
  | zero => exact .malformed
  | succ steps =>
      obtain ⟨k, rfl⟩ := Nat.exists_eq_add_of_le' (Nat.zero_lt_of_lt enough)
      cases cs with
      | nil => exact .malformed
      | cons c cs =>
          by_cases quote : c = '"'
          · subst quote
            rw [List.cons_append, value, value]
            apply Extends.orMalformed
            intro x rest read _
            obtain ⟨⟨body, tail⟩, closed, same⟩ := Option.map_eq_some_iff.mp read
            obtain ⟨rfl, rfl⟩ := Prod.mk.inj same
            rw [textBody?_more closed (by rw [List.length_append]; omega)]
            rfl
          by_cases bracket : c = '['
          · subst bracket
            cases nesting with
            | zero => exact ⟨fun _ => rfl, nofun⟩
            | succ nesting => exact extends_bracket (fun cs => extends_items (by omega) nesting cs more) cs
          by_cases brace : c = '\x7b'
          · subst brace
            cases nesting with
            | zero => exact ⟨fun _ => rfl, nofun⟩
            | succ nesting => exact extends_brace (fun cs => extends_members (by omega) nesting [] cs more) cs
          · rw [List.cons_append, value, value]
            · exact .orMalformed fun _ _ read left => scalar?_more read left
            all_goals
              rintro _ ⟨⟩
              contradiction

theorem extends_items {steps steps' : Nat} (enough : steps ≤ steps') (nesting : Nat) (cs more : List Char) :
    Extends more (items steps nesting cs) (items steps' nesting (cs ++ more)) := by
  cases steps with
  | zero => exact .malformed
  | succ steps =>
      obtain ⟨k, rfl⟩ := Nat.exists_eq_add_of_le' (Nat.zero_lt_of_lt enough)
      rw [items, items]
      apply (extends_value (by omega) nesting cs more).bind
      intro v rest
      dsimp only
      by_cases comma : ∃ tail, skipBlanks rest = ',' :: tail
      · obtain ⟨tail, front⟩ := comma
        refine .inr ⟨settled_of_skipBlanks front (by decide), ?_⟩
        rw [front, skipBlanks_more front]
        have later := Extends.skip (items_nil steps nesting)
          (fun cs => extends_items (by omega : steps ≤ k) nesting cs more) tail
        exact later.map (v :: ·)
      by_cases close : ∃ tail, skipBlanks rest = ']' :: tail
      · obtain ⟨tail, front⟩ := close
        refine .inr ⟨settled_of_skipBlanks front (by decide), ?_⟩
        rw [front, skipBlanks_more front]
        exact .ok [v] tail
      · left
        split
        · rename_i front
          exact absurd ⟨_, front⟩ comma
        · rename_i front
          exact absurd ⟨_, front⟩ close
        · rfl

theorem extends_members {steps steps' : Nat} (enough : steps ≤ steps') (nesting : Nat)
    (es : Entries CodePoints Json) (cs more : List Char) :
    Extends more (members steps nesting es cs) (members steps' nesting es (cs ++ more)) := by
  cases steps with
  | zero => exact .malformed
  | succ steps =>
      obtain ⟨k, rfl⟩ := Nat.exists_eq_add_of_le' (Nat.zero_lt_of_lt enough)
      by_cases quote : ∃ rest, cs = '"' :: rest
      · obtain ⟨rest, rfl⟩ := quote
        rw [List.cons_append, members, members]
        have named : ∀ name tail, textBody? (rest.length + 1) rest = some (name, tail) → Settled tail →
            textBody? ((rest ++ more).length + 1) (rest ++ more) = some (name, tail ++ more) :=
          fun _ _ closed _ => textBody?_more closed (by rw [List.length_append]; omega)
        apply (Extends.orMalformed named).bind
        intro name rest
        dsimp only
        by_cases colon : ∃ tail, skipBlanks rest = ':' :: tail
        · obtain ⟨tail, front⟩ := colon
          refine .inr ⟨settled_of_skipBlanks front (by decide), ?_⟩
          rw [front, skipBlanks_more front]
          have read := Extends.skip (value_nil steps nesting)
            (fun cs => extends_value (by omega : steps ≤ k) nesting cs more) tail
          apply read.bind
          intro v rest
          dsimp only
          by_cases comma : ∃ tail, skipBlanks rest = ',' :: tail
          · obtain ⟨tail, front⟩ := comma
            refine .inr ⟨settled_of_skipBlanks front (by decide), ?_⟩
            rw [front, skipBlanks_more front]
            exact Extends.skip (members_nil steps nesting _)
              (fun cs => extends_members (by omega : steps ≤ k) nesting _ cs more) tail
          by_cases close : ∃ tail, skipBlanks rest = '\x7d' :: tail
          · obtain ⟨tail, front⟩ := close
            refine .inr ⟨settled_of_skipBlanks front (by decide), ?_⟩
            rw [front, skipBlanks_more front]
            exact .ok _ tail
          · left
            split
            · rename_i front
              exact absurd ⟨_, front⟩ comma
            · rename_i front
              exact absurd ⟨_, front⟩ close
            · rfl
        · left
          split
          · rename_i front
            exact absurd ⟨_, front⟩ colon
          · rfl
      · have unread : members (steps + 1) nesting es cs = .error .malformed := by
          unfold members
          split
          · exact absurd ⟨_, rfl⟩ quote
          · rfl
        rw [unread]
        exact .malformed
end

/-- A text that is nested too deeply is so whatever it goes on with. -/
theorem tooDeep_of_beginning (deep : ofText nesting cs = .error .tooDeep) (more : List Char) :
    ofText nesting (cs ++ more) = .error .tooDeep := by
  have enough : 2 * cs.length + 1 ≤ 2 * (cs ++ more).length + 1 := by
    rw [List.length_append]
    omega
  have extended := Extends.skip (value_nil _ _) (fun cs => extends_value enough (nesting + 1) cs more) cs
  rw [ofText, Json.read] at deep ⊢
  cases first : value (2 * cs.length + 1) (nesting + 1) (skipBlanks cs) with
  | ok r =>
      rw [first, ok_bind] at deep
      dsimp only at deep
      split at deep <;> cases deep
  | error refusal =>
      rw [first] at deep extended
      obtain rfl := Except.error.inj deep
      rw [extended.deep rfl]
      rfl

end Surd.Json
