import Surd.Proofs.Json.Number
import Surd.Proofs.Json.Text
import Surd.Proofs.Entries
import Surd.Proofs.Returns

/-!
# Writing and reading JSON

The values that the reader gives are `Readable`: their texts have no split pairs, no name of an object occurs twice, and
they are nested no deeper than was allowed (`readable_of_ofText`). Every such value is read back from the file that is
written for it (`ofText_toFile`).
-/

namespace Surd.Json

variable {n steps nesting : Nat} {v : Json} {vs : List Json} {es : Entries CodePoints Json} {level : Option Nat}
  {cs cs' rest tail : List Char}

/-- The values that a reader gives which allows arrays and objects to be nested so deep. -/
inductive Readable : Nat → Json → Prop
  | null {nesting : Nat} : Readable nesting null
  | bool {nesting : Nat} (b : Bool) : Readable nesting (bool b)
  | number {nesting : Nat} (n : Number) : Readable nesting (number n)
  | string {nesting : Nat} {s : CodePoints} (joined : Joined s) : Readable nesting (string s)
  | array {nesting : Nat} {vs : List Json} (items : ∀ v ∈ vs, Readable nesting v) : Readable (nesting + 1) (array vs)
  | object {nesting : Nat} {es : Entries CodePoints Json} (distinct : es.names.Nodup)
      (joined : ∀ e ∈ es, Joined e.1) (values : ∀ e ∈ es, Readable nesting e.2) : Readable (nesting + 1) (object es)

/-- Members of a readable object. -/
structure ReadableMembers (nesting : Nat) (es : Entries CodePoints Json) : Prop where
  distinct : es.names.Nodup
  joined : ∀ e ∈ es, Joined e.1
  values : ∀ e ∈ es, Readable nesting e.2

theorem readable_object_iff : Readable (nesting + 1) (object es) ↔ ReadableMembers nesting es := by
  constructor
  · rintro (_ | _ | _ | _ | _ | ⟨distinct, joined, values⟩)
    exact ⟨distinct, joined, values⟩
  · rintro ⟨distinct, joined, values⟩
    exact .object distinct joined values

theorem ReadableMembers.nil : ReadableMembers nesting [] :=
  ⟨List.nodup_nil, List.forall_mem_nil _, List.forall_mem_nil _⟩

theorem ReadableMembers.put {name : CodePoints} (h : ReadableMembers nesting es) (joined : Joined name)
    (value : Readable nesting v) : ReadableMembers nesting (es.put name v) where
  distinct := Entries.nodup_names_put h.distinct name v
  joined := by
    intro e he
    obtain rfl | he := Entries.mem_of_mem_put he
    · exact joined
    · exact h.joined e he
  values := by
    intro e he
    obtain rfl | he := Entries.mem_of_mem_put he
    · exact value
    · exact h.values e he

/-! ## What is read -/

theorem exists_of_orMalformed {α : Type} {o : Option α} {a : α} (h : orMalformed o = .ok a) : o = some a := by
  cases o with
  | none => cases h
  | some b => rw [Except.ok.inj h]

theorem readable_of_scalar? {r : Json × List Char} (h : scalar? cs = some r) : Readable nesting r.1 := by
  unfold scalar? at h
  split at h
  all_goals
    obtain ⟨a, _, same⟩ := Option.map_eq_some_iff.mp h
    subst same
    constructor

mutual
/-- A value that is read is readable. -/
theorem readable_of_value {steps nesting : Nat} {cs rest : List Char} {v : Json}
    (h : value steps nesting cs = .ok (v, rest)) : Readable nesting v := by
  cases steps with
  | zero => cases h
  | succ steps =>
      unfold value at h
      split at h
      · obtain ⟨_, text, same⟩ := Option.map_eq_some_iff.mp (exists_of_orMalformed h)
        obtain ⟨rfl, rfl⟩ := same
        exact .string (joined_of_textBody? text).1
      · split at h
        · cases h
        · obtain ⟨rfl, rfl⟩ := Except.ok.inj h
          exact .array (List.forall_mem_nil _)
        · obtain ⟨⟨vs, _⟩, read, h⟩ := exists_of_bind_eq_ok h
          obtain ⟨rfl, rfl⟩ := Except.ok.inj h
          exact .array (readable_of_items read)
      · split at h
        · cases h
        · obtain ⟨rfl, rfl⟩ := Except.ok.inj h
          exact readable_object_iff.mpr .nil
        · obtain ⟨⟨es, _⟩, read, h⟩ := exists_of_bind_eq_ok h
          obtain ⟨rfl, rfl⟩ := Except.ok.inj h
          exact readable_object_iff.mpr (readable_of_members read .nil)
      · exact readable_of_scalar? (exists_of_orMalformed h)

theorem readable_of_items {steps nesting : Nat} {cs rest : List Char} {vs : List Json}
    (h : items steps nesting cs = .ok (vs, rest)) : ∀ v ∈ vs, Readable nesting v := by
  cases steps with
  | zero => cases h
  | succ steps =>
      rw [items] at h
      obtain ⟨⟨v, _⟩, read, h⟩ := exists_of_bind_eq_ok h
      have first := readable_of_value read
      dsimp only at h
      split at h
      · obtain ⟨⟨more, _⟩, read, h⟩ := exists_of_bind_eq_ok h
        obtain ⟨rfl, rfl⟩ := Except.ok.inj h
        exact List.forall_mem_cons.mpr ⟨first, readable_of_items read⟩
      · obtain ⟨rfl, rfl⟩ := Except.ok.inj h
        exact List.forall_mem_singleton.mpr first
      · cases h

theorem readable_of_members {steps nesting : Nat} {cs rest : List Char} {es es' : Entries CodePoints Json}
    (h : members steps nesting es cs = .ok (es', rest)) (before : ReadableMembers nesting es) :
    ReadableMembers nesting es' := by
  cases steps with
  | zero => cases h
  | succ steps =>
      unfold members at h
      split at h
      · obtain ⟨⟨name, _⟩, text, h⟩ := exists_of_bind_eq_ok h
        have joined := (joined_of_textBody? (exists_of_orMalformed text)).1
        dsimp only at h
        split at h
        · obtain ⟨⟨v, _⟩, read, h⟩ := exists_of_bind_eq_ok h
          have more := before.put joined (readable_of_value read)
          dsimp only at h
          split at h
          · exact readable_of_members h more
          · obtain ⟨rfl, rfl⟩ := Except.ok.inj h
            exact more
          · cases h
        · cases h
      · cases h
end

theorem readable_of_ofText (h : ofText nesting cs = .ok v) : Readable (nesting + 1) v := by
  obtain ⟨⟨v', rest⟩, read, h⟩ := exists_of_bind_eq_ok h
  dsimp only at h
  split at h
  · obtain rfl := Except.ok.inj h
    exact readable_of_value read
  · cases h

/-! ## Blanks -/

/-- The text starts with a value, not with a blank or the end of what the value could be in. -/
def StartsValue (cs : List Char) : Prop := ∃ c tail, cs = c :: tail ∧ isJsonBlank c = false ∧ c ≠ ']'

theorem skipBlanks_append {bs : List Char} (blank : ∀ c ∈ bs, isJsonBlank c = true) (cs : List Char) :
    skipBlanks (bs ++ cs) = skipBlanks cs :=
  List.dropWhile_append_of_pos blank

theorem skipBlanks_cons {c : Char} (h : isJsonBlank c = false) (cs : List Char) : skipBlanks (c :: cs) = c :: cs :=
  List.dropWhile_cons_of_neg (ne_true_of_eq_false h)

theorem StartsValue.skipBlanks (h : StartsValue cs) : Json.skipBlanks cs = cs := by
  obtain ⟨c, tail, rfl, blank, _⟩ := h
  exact skipBlanks_cons blank tail

theorem isJsonBlank_of_mem_lineBreak (level : Option Nat) : ∀ c ∈ lineBreak level, isJsonBlank c = true := by
  cases level with
  | none => exact List.forall_mem_nil _
  | some n =>
      show ∀ c ∈ '\n' :: List.replicate (4 * n) ' ', isJsonBlank c = true
      refine List.forall_mem_cons.mpr ⟨rfl, fun c hc => ?_⟩
      rw [List.eq_of_mem_replicate hc]
      rfl

theorem exists_separator (level : Option Nat) :
    ∃ bs, separator level = ',' :: bs ∧ ∀ c ∈ bs, isJsonBlank c = true := by
  cases level with
  | none => exact ⟨[' '], rfl, List.forall_mem_singleton.mpr rfl⟩
  | some n => exact ⟨_, rfl, isJsonBlank_of_mem_lineBreak _⟩

/-- A later item stands behind a comma and blanks. -/
theorem exists_writeItems_cons (level : Option Nat) (w : Json) (ws : List Json) :
    ∃ bs, writeItems level (w :: ws) = ',' :: (bs ++ (write level w ++ writeItems level ws)) ∧
      ∀ c ∈ bs, isJsonBlank c = true := by
  obtain ⟨bs, comma, blank⟩ := exists_separator level
  exact ⟨bs, by rw [writeItems, comma, List.append_assoc, List.cons_append], blank⟩

/-- A later member stands behind a comma and blanks. -/
theorem exists_writeMembers_cons (level : Option Nat) (name : CodePoints) (w : Json)
    (later : Entries CodePoints Json) :
    ∃ bs, writeMembers level ((name, w) :: later) =
        ',' :: (bs ++ (quote name ++ (':' :: ' ' :: (write level w ++ writeMembers level later)))) ∧
      ∀ c ∈ bs, isJsonBlank c = true := by
  obtain ⟨bs, comma, blank⟩ := exists_separator level
  exact ⟨bs, by simp [writeMembers, comma], blank⟩

/-! ## What is written -/

theorem starts_of_scalar? {r : Json × List Char} (h : scalar? cs = some r) :
    ∃ c tail, cs = c :: tail ∧ c ∉ [' ', '\t', '\n', '\r', ']', '"', '[', '\x7b'] := by
  cases cs with
  | nil => cases h
  | cons c tail =>
      refine ⟨c, tail, rfl, fun hc => ?_⟩
      simp only [List.mem_cons, List.not_mem_nil, or_false] at hc
      obtain rfl | rfl | rfl | rfl | rfl | rfl | rfl | rfl := hc <;> cases h

theorem value_of_scalar? {r : Json × List Char} (h : scalar? cs = some r) (nesting : Nat) :
    value (steps + 1) nesting cs = .ok r := by
  obtain ⟨c, tail, rfl, other⟩ := starts_of_scalar? h
  rw [value, h]
  · rfl
  all_goals
    rintro _ ⟨⟩
    exact other (by decide)

/-- The value is read from what is written for it, at any level and before anything that does not go on with a number.
Twice the length of the text is enough steps. -/
def Reads (nesting : Nat) (v : Json) : Prop :=
  ∀ level rest steps, EndsNumber rest → 2 * (write level v).length ≤ steps →
    value steps nesting (write level v ++ rest) = .ok (v, rest)

theorem reads_of_scalar? (h : ∀ level rest, EndsNumber rest → scalar? (write level v ++ rest) = some (v, rest)) :
    Reads nesting v := by
  intro level rest steps ends enough
  have read := h level rest ends
  have some_char : write level v ≠ [] := by
    intro none_left
    obtain ⟨c, tail, same, _⟩ := starts_of_scalar? (h level [] (by rintro _ ⟨⟩))
    rw [none_left] at same
    cases same
  have := List.length_pos_iff.mpr some_char
  obtain ⟨k, rfl⟩ : ∃ k, steps = k + 1 := ⟨steps - 1, by omega⟩
  exact value_of_scalar? read nesting

/-- A text in quotes is read up to the closing quote. -/
theorem exists_textBody?_quote {s : CodePoints} (joined : Joined s) (rest : List Char) :
    ∃ tail, quote s ++ rest = '"' :: tail ∧ textBody? (tail.length + 1) tail = some (s, rest) := by
  refine ⟨s.flatMap escapePoint ++ '"' :: rest, ?_, textBody?_quoted joined rest ?_⟩
  · rw [quote, List.cons_append, List.cons_append, List.append_assoc]
    rfl
  · rw [List.length_append]
    omega

theorem reads_string {s : CodePoints} (joined : Joined s) : Reads nesting (string s) := by
  intro level rest steps ends enough
  obtain ⟨tail, quoted, read⟩ := exists_textBody?_quote joined rest
  obtain ⟨k, rfl⟩ : ∃ k, steps = k + 1 := by
    rw [write, quote, List.cons_append, List.length_cons] at enough
    exact ⟨steps - 1, by omega⟩
  rw [write, quoted, value, read]
  rfl

theorem startsValue_of_value {r : Json × List Char} (h : value steps nesting cs = .ok r) : StartsValue cs := by
  obtain _ | k := steps
  · cases h
  · cases cs with
    | nil => cases h
    | cons c tail =>
        have other : c ∉ [' ', '\t', '\n', '\r', ']'] := by
          intro hc
          simp only [List.mem_cons, List.not_mem_nil, or_false] at hc
          obtain rfl | rfl | rfl | rfl | rfl := hc <;> cases h
        simp only [List.mem_cons, List.not_mem_nil, or_false, not_or] at other
        obtain ⟨blank, tab, feed, ret, close⟩ := other
        exact ⟨c, tail, rfl, by simp [isJsonBlank, blank, tab, feed, ret], close⟩

theorem startsValue_write (h : Reads nesting v) (level : Option Nat) (cs : List Char) :
    StartsValue (write level v ++ cs) := by
  have read := h level [] _ (by rintro _ ⟨⟩) le_rfl
  obtain ⟨c, tail, starts, front⟩ := startsValue_of_value read
  rw [List.append_nil] at starts
  exact ⟨c, tail ++ cs, by rw [starts]; rfl, front⟩

theorem endsNumber_cons {c : Char} (h : isDigit c = false ∧ c ∉ ['.', 'e', 'E']) (cs : List Char) :
    EndsNumber (c :: cs) := by
  rintro _ ⟨⟩
  exact h

theorem endsNumber_blanks {bs : List Char} (blank : ∀ c ∈ bs, isJsonBlank c = true) (h : EndsNumber cs) :
    EndsNumber (bs ++ cs) := by
  cases bs with
  | nil => exact h
  | cons b bs =>
      have hb := blank b List.mem_cons_self
      simp only [isJsonBlank, Bool.or_eq_true, beq_iff_eq] at hb
      apply endsNumber_cons
      obtain ((rfl | rfl) | rfl) | rfl := hb <;> decide

/-! ## Items and members -/

theorem items_last (read : value steps nesting cs = .ok (v, tail)) (close : skipBlanks tail = ']' :: rest) :
    items (steps + 1) nesting cs = .ok ([v], rest) := by
  rw [items, read, ok_bind]
  dsimp only
  rw [close]
  rfl

theorem items_more (read : value steps nesting cs = .ok (v, tail)) (comma : skipBlanks tail = ',' :: cs')
    (more : items steps nesting (skipBlanks cs') = .ok (vs, rest)) :
    items (steps + 1) nesting cs = .ok (v :: vs, rest) := by
  rw [items, read, ok_bind]
  dsimp only
  rw [comma]
  show (items steps nesting (skipBlanks cs') >>= _) = _
  rw [more]
  rfl

/-- The items of an array are read up to its end. -/
theorem items_write (h : ∀ w ∈ v :: vs, Reads nesting w) (blank : ∀ c ∈ cs, isJsonBlank c = true)
    (level : Option Nat) (steps : Nat) (rest : List Char)
    (enough : 2 * (write level v ++ writeItems level vs).length < steps) :
    items steps nesting (write level v ++ (writeItems level vs ++ (cs ++ ']' :: rest))) = .ok (v :: vs, rest) := by
  induction vs generalizing v steps with
  | nil =>
      obtain ⟨k, rfl⟩ : ∃ k, steps = k + 1 := ⟨steps - 1, by omega⟩
      rw [List.length_append] at enough
      have ends : EndsNumber (cs ++ ']' :: rest) := endsNumber_blanks blank (endsNumber_cons (by decide) _)
      apply items_last (h v List.mem_cons_self level _ k ends (by omega))
      rw [skipBlanks_append blank, skipBlanks_cons rfl]
  | cons w ws ih =>
      obtain ⟨k, rfl⟩ : ∃ k, steps = k + 1 := ⟨steps - 1, by omega⟩
      obtain ⟨bs, separated, between⟩ := exists_writeItems_cons level w ws
      have later : ∀ u ∈ w :: ws, Reads nesting u := fun u hu => h u (List.mem_cons_of_mem v hu)
      rw [separated] at enough ⊢
      simp only [List.length_append, List.length_cons] at enough
      simp only [List.append_assoc, List.cons_append]
      have first := fun cs => h v List.mem_cons_self level (',' :: cs) k (endsNumber_cons (by decide) cs) (by omega)
      apply items_more (first _) (skipBlanks_cons rfl _)
      rw [skipBlanks_append between, (startsValue_write (later w List.mem_cons_self) level _).skipBlanks]
      exact ih later k (by rw [List.length_append]; omega)

theorem members_last {name : CodePoints} {text : List Char} (front : cs = '"' :: text)
    (named : textBody? (text.length + 1) text = some (name, ':' :: tail))
    (read : value steps nesting (skipBlanks tail) = .ok (v, cs')) (close : skipBlanks cs' = '\x7d' :: rest) :
    members (steps + 1) nesting es cs = .ok (es.put name v, rest) := by
  rw [front, members, named]
  show (value steps nesting (skipBlanks tail) >>= _) = _
  rw [read, ok_bind]
  dsimp only
  rw [close]
  rfl

theorem members_more {name : CodePoints} {text more : List Char} (front : cs = '"' :: text)
    (named : textBody? (text.length + 1) text = some (name, ':' :: tail))
    (read : value steps nesting (skipBlanks tail) = .ok (v, cs')) (comma : skipBlanks cs' = ',' :: more) :
    members (steps + 1) nesting es cs = members steps nesting (es.put name v) (skipBlanks more) := by
  rw [front, members, named]
  show (value steps nesting (skipBlanks tail) >>= _) = _
  rw [read, ok_bind]
  dsimp only
  rw [comma]
  rfl

/-- The value of a member is read after its name. -/
theorem value_member (h : Reads nesting v) (ends : EndsNumber cs) (level : Option Nat) (steps : Nat)
    (enough : 2 * (write level v).length ≤ steps) :
    value steps nesting (skipBlanks (' ' :: (write level v ++ cs))) = .ok (v, cs) := by
  have front : skipBlanks (' ' :: (write level v ++ cs)) = write level v ++ cs :=
    (startsValue_write h level cs).skipBlanks
  rw [front, h level cs steps ends enough]

theorem skipBlanks_quote (name : CodePoints) (cs : List Char) : skipBlanks (quote name ++ cs) = quote name ++ cs :=
  skipBlanks_cons rfl _

/-- The members of an object are read up to its end, after those that there are. -/
theorem members_write {name : CodePoints} {later : Entries CodePoints Json}
    (h : ReadableMembers nesting (es ++ (name, v) :: later)) (reads : ∀ e ∈ (name, v) :: later, Reads nesting e.2)
    (blank : ∀ c ∈ cs, isJsonBlank c = true) (level : Option Nat) (steps : Nat) (rest : List Char)
    (enough : 2 * (quote name ++ (write level v ++ writeMembers level later)).length < steps) :
    members steps nesting es
      (quote name ++ (':' :: ' ' :: (write level v ++ (writeMembers level later ++ (cs ++ '\x7d' :: rest))))) =
      .ok (es ++ (name, v) :: later, rest) := by
  induction later generalizing es name v steps with
  | nil =>
      obtain ⟨k, rfl⟩ : ∃ k, steps = k + 1 := ⟨steps - 1, by omega⟩
      simp only [List.length_append] at enough
      have joined := h.joined (name, v) (List.mem_append_right es List.mem_cons_self)
      have ends : EndsNumber (cs ++ '\x7d' :: rest) := endsNumber_blanks blank (endsNumber_cons (by decide) _)
      obtain ⟨text, front, named⟩ :=
        exists_textBody?_quote joined (':' :: ' ' :: (write level v ++ (cs ++ '\x7d' :: rest)))
      have first : Reads nesting v := reads (name, v) List.mem_cons_self
      have read := value_member first ends level k (by omega)
      have close : skipBlanks (cs ++ '\x7d' :: rest) = '\x7d' :: rest := by
        rw [skipBlanks_append blank, skipBlanks_cons rfl]
      rw [← Entries.put_of_not_mem (Entries.not_mem_of_nodup_append h.distinct) v]
      exact members_last front named read close
  | cons e later ih =>
      obtain ⟨name', w⟩ := e
      obtain ⟨k, rfl⟩ : ∃ k, steps = k + 1 := ⟨steps - 1, by omega⟩
      obtain ⟨bs, separated, between⟩ := exists_writeMembers_cons level name' w later
      rw [separated] at enough ⊢
      simp only [List.length_append, List.length_cons] at enough
      simp only [List.append_assoc, List.cons_append]
      have joined := h.joined (name, v) (List.mem_append_right es List.mem_cons_self)
      obtain ⟨text, front, named⟩ := exists_textBody?_quote joined (':' :: ' ' :: (write level v ++ (',' :: (bs ++
        (quote name' ++ (':' :: ' ' :: (write level w ++ (writeMembers level later ++ (cs ++ '\x7d' :: rest)))))))))
      have first : Reads nesting v := reads (name, v) List.mem_cons_self
      have read := fun cs => value_member first (endsNumber_cons (c := ',') (by decide) cs) level k (by omega)
      rw [members_more front named (read _) (skipBlanks_cons rfl _), skipBlanks_append between, skipBlanks_quote,
        Entries.put_of_not_mem (Entries.not_mem_of_nodup_append h.distinct)]
      rw [List.append_cons es (name, v) ((name', w) :: later)] at h ⊢
      apply ih h (fun e he => reads e (List.mem_cons_of_mem _ he))
      simp only [List.length_append]
      omega

/-! ## Values -/

/-- An array that does not end at once has items. -/
theorem value_bracket (open_end : ∀ tail, skipBlanks cs ≠ ']' :: tail) :
    value (steps + 1) (nesting + 1) ('[' :: cs) =
      items steps nesting (skipBlanks cs) >>= fun r => .ok (array r.1, r.2) :=
  value.eq_5 _ _ _ open_end

/-- An object that does not end at once has members. -/
theorem value_brace (open_end : ∀ tail, skipBlanks cs ≠ '\x7d' :: tail) :
    value (steps + 1) (nesting + 1) ('\x7b' :: cs) =
      members steps nesting [] (skipBlanks cs) >>= fun r => .ok (object r.1, r.2) :=
  value.eq_8 _ _ _ open_end

theorem value_array (starts : StartsValue (skipBlanks cs))
    (read : items steps nesting (skipBlanks cs) = .ok (vs, rest)) :
    value (steps + 1) (nesting + 1) ('[' :: cs) = .ok (array vs, rest) := by
  obtain ⟨c, tail, front, _, other⟩ := starts
  rw [value_bracket fun _ close => other (List.cons.inj (front.symm.trans close)).1, read]
  rfl

theorem value_object (starts : skipBlanks cs = '"' :: tail)
    (read : members steps nesting [] (skipBlanks cs) = .ok (es, rest)) :
    value (steps + 1) (nesting + 1) ('\x7b' :: cs) = .ok (object es, rest) := by
  have open_end : ∀ tail, skipBlanks cs ≠ '\x7d' :: tail := by
    intro _ close
    cases starts.symm.trans close
  rw [value_brace open_end, read]
  rfl

theorem reads_array (h : ∀ v ∈ vs, Reads nesting v) : Reads (nesting + 1) (array vs) := by
  intro level rest steps ends enough
  cases vs with
  | nil =>
      obtain ⟨k, rfl⟩ : ∃ k, steps = k + 1 := ⟨steps - 1, by simp [write] at enough; omega⟩
      rfl
  | cons v vs =>
      rw [write] at enough ⊢
      simp only [List.length_append, List.length_cons] at enough
      simp only [List.append_assoc, List.cons_append]
      obtain ⟨k, rfl⟩ : ∃ k, steps = k + 1 := ⟨steps - 1, by omega⟩
      generalize level.map (· + 1) = inner at enough ⊢
      have starts := startsValue_write (h v List.mem_cons_self) inner
        (writeItems inner vs ++ (lineBreak level ++ ']' :: rest))
      have skipped := skipBlanks_append (isJsonBlank_of_mem_lineBreak inner)
        (write inner v ++ (writeItems inner vs ++ (lineBreak level ++ ']' :: rest)))
      rw [starts.skipBlanks] at skipped
      have read := items_write h (isJsonBlank_of_mem_lineBreak level) inner k rest (by rw [List.length_append]; omega)
      rw [← skipped] at starts read
      exact value_array starts read

theorem reads_object (h : ReadableMembers nesting es) (reads : ∀ e ∈ es, Reads nesting e.2) :
    Reads (nesting + 1) (object es) := by
  intro level rest steps ends enough
  cases es with
  | nil =>
      obtain ⟨k, rfl⟩ : ∃ k, steps = k + 1 := ⟨steps - 1, by simp [write] at enough; omega⟩
      rfl
  | cons e es =>
      obtain ⟨name, v⟩ := e
      rw [write] at enough ⊢
      simp only [List.length_append, List.length_cons] at enough
      simp only [List.append_assoc, List.cons_append]
      obtain ⟨k, rfl⟩ : ∃ k, steps = k + 1 := ⟨steps - 1, by omega⟩
      generalize level.map (· + 1) = inner at enough ⊢
      have skipped := skipBlanks_append (isJsonBlank_of_mem_lineBreak inner) (quote name ++
        (':' :: ' ' :: (write inner v ++ (writeMembers inner es ++ (lineBreak level ++ '\x7d' :: rest)))))
      rw [skipBlanks_quote] at skipped
      have members : ReadableMembers nesting ([] ++ (name, v) :: es) := h
      have read := members_write members reads (isJsonBlank_of_mem_lineBreak level) inner k rest
        (by simp only [List.length_append]; omega)
      rw [← skipped] at read
      exact value_object skipped read

/-- A readable value is read from what is written for it. -/
theorem reads_of_readable (h : Readable nesting v) : Reads nesting v := by
  induction h with
  | null => exact reads_of_scalar? fun _ _ _ => rfl
  | bool b => exact reads_of_scalar? fun _ _ _ => by cases b <;> rfl
  | number n => exact reads_of_scalar? fun _ _ ends => scalar?_writeNumber n ends
  | string joined => exact reads_string joined
  | array _ ih => exact reads_array ih
  | object distinct joined values ih => exact reads_object ⟨distinct, joined, values⟩ ih

/-- A readable value is read back from the file that is written for it. -/
theorem ofText_toFile (h : Readable (nesting + 1) v) : ofText nesting v.toFile.toList = .ok v := by
  have reads := reads_of_readable h
  have starts := startsValue_write reads (some 0) []
  have read := reads (some 0) [] (2 * (write (some 0) v).length + 1) (by rintro _ ⟨⟩) (Nat.le_succ _)
  rw [List.append_nil] at starts read
  rw [ofText, Json.read, toFile, String.toList_ofList, starts.skipBlanks, read]
  rfl

end Surd.Json
