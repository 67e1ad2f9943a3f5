/-!
# Entries

Named values in the order in which the names were first given. A name occurs once: giving it a new value keeps its
place, and a name that was removed and given again comes last.
-/

namespace Surd

/-- Named values in order. -/
abbrev Entries (κ α : Type) := List (κ × α)

namespace Entries

variable {κ α : Type} [DecidableEq κ]

/-- The value under a name. -/
def get? (name : κ) : Entries κ α → Option α
  | [] => none
  | (n, v) :: rest => if n = name then some v else get? name rest

/-- The entries with a value under a name, in its place or at the end. -/
def put (name : κ) (value : α) : Entries κ α → Entries κ α
  | [] => [(name, value)]
  | (n, v) :: rest => if n = name then (n, value) :: rest else (n, v) :: put name value rest

/-- The entries without a name. -/
def erase (name : κ) : Entries κ α → Entries κ α
  | [] => []
  | (n, v) :: rest => if n = name then rest else (n, v) :: erase name rest

/-- The names in order. -/
def names (es : Entries κ α) : List κ := es.map Prod.fst

/-- Whether a name has a value. -/
def has (es : Entries κ α) (name : κ) : Bool := (get? name es).isSome

/-- The entries `es` with every entry of `later` put into them, in order. -/
def merge (es later : Entries κ α) : Entries κ α := later.foldl (fun acc e => put e.1 e.2 acc) es

@[simp] theorem get?_put_self (name : κ) (value : α) (es : Entries κ α) :
    get? name (put name value es) = some value := by
  induction es with
  | nil => simp [put, get?]
  | cons e rest ih =>
    obtain ⟨n, v⟩ := e
    by_cases h : n = name <;> simp [put, get?, h, ih]

theorem get?_put_of_ne {name other : κ} (value : α) (es : Entries κ α) (h : other ≠ name) :
    get? other (put name value es) = get? other es := by
  induction es with
  | nil => simp [put, get?, h.symm]
  | cons e rest ih =>
    obtain ⟨n, v⟩ := e
    by_cases hn : n = name
    · subst hn
      simp [put, get?, h.symm]
    · by_cases ho : n = other
      · subst ho
        simp [put, get?, hn]
      · simp [put, get?, hn, ho, ih]

end Entries

end Surd
