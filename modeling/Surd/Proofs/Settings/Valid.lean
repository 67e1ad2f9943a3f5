import Surd.Proofs.Settings.File
import Surd.Proofs.Number.Value

/-!
# Valid settings

Settings are `Valid` if each known name has a value that suits it. All that a calculator asks its settings for is there
then and in range. Settings from a file are valid, and a change that is accepted keeps settings valid.
-/

namespace Surd.Settings

variable {nesting : Nat} {settings : Settings} {name : CodePoints} {value default : Json}

/-- Every known name has a value that suits it. -/
def Valid (settings : Settings) : Prop :=
  ∀ name ∈ Entries.names defaults, ∃ value, settings.get? name = some value ∧ isValid? name value = some true

theorem isValid?_eq_some (h : Entries.get? name defaults = some default) :
    isValid? name value = some (suits name default value) := by
  rw [isValid?, h]
  rfl

theorem Valid.put (h : Valid settings) (suited : isValid? name value = some true) :
    Valid (settings.put name value) := by
  intro other known
  by_cases same : other = name
  · exact ⟨value, same ▸ Entries.get?_put_self name value settings, same ▸ suited⟩
  · rw [Entries.get?_put_of_ne value settings same]
    exact h other known

theorem Stored.valid (h : Stored nesting settings) : Valid settings := by
  intro name known
  obtain ⟨value, found⟩ := Entries.exists_get?_of_mem (h.known.subset known)
  obtain ⟨default, hd⟩ := Entries.exists_get?_of_mem known
  refine ⟨value, found, ?_⟩
  have suited := h.suited _ (Entries.mem_of_get? found)
  rw [isValid?_eq_some hd] at suited ⊢
  exact congrArg some (Bool.not_eq_false _ ▸ fun unsuited => suited (congrArg some unsuited))

/-- The value of a known setting suits its default. -/
theorem Valid.suits_value (h : Valid settings) (name : String)
    (hd : Entries.get? (codePoints name) defaults = some default) :
    suits (codePoints name) default (settings.value name) = true := by
  obtain ⟨value, found, suited⟩ := h _ (List.mem_map_of_mem (Entries.mem_of_get? hd))
  rw [isValid?_eq_some hd] at suited
  rw [Settings.value, found]
  exact Option.some.inj suited

/-- A value that suits a whole default is a whole number in range. -/
theorem exists_int_of_suits {n : Int} (h : suits name (.number (.int n)) value = true) :
    ∃ n, value = .number (.int n) ∧ inRange name (.int n) = true := by
  cases value with
  | number k =>
      cases k with
      | int m => exact ⟨m, rfl, h⟩
      | real => cases h
  | null | bool | string | array | object => cases h

/-- The value of a setting whose default is a whole number is one in its range. -/
theorem Valid.exists_int (h : Valid settings) (name : String) {n : Int}
    (hd : Entries.get? (codePoints name) defaults = some (.number (.int n))) :
    ∃ n, settings.value name = .number (.int n) ∧ inRange (codePoints name) (.int n) = true :=
  exists_int_of_suits (h.suits_value name hd)

theorem range_eq (name : CodePoints) (least most : Int) (h : range name = (.int least, .int most)) (n : Int) :
    inRange name (.int n) = true ↔ least ≤ n ∧ n ≤ most := by
  rw [inRange, h, Number.le_int, Number.le_int, Bool.and_eq_true, decide_eq_true_eq, decide_eq_true_eq]

theorem valid_defaults : Valid defaults := by
  have stored : Stored 0 defaults := stored_defaults
  exact stored.valid

/-! ## What valid settings say -/

theorem Valid.exactLimit_returns (h : Valid settings) : Returns settings.exactLimit fun _ => True := by
  obtain ⟨n, value, _⟩ := h.exists_int "max_exact_integer" rfl
  rw [exactLimit, comparand, value]
  exact .ok trivial

theorem Valid.radicalPrecision_returns (h : Valid settings) : Returns settings.radicalPrecision fun _ => True := by
  have suited := h.suits_value "radical_precision" rfl
  rw [radicalPrecision, comparand]
  generalize settings.value "radical_precision" = v at suited ⊢
  cases v with
  | number k => exact .ok trivial
  | null | bool | string | array | object => cases suited

theorem Valid.decimalPlaces_returns (h : Valid settings) : Returns settings.decimalPlaces (· ≤ 100) := by
  obtain ⟨n, value, bounds⟩ := h.exists_int "decimal_places" rfl
  have ⟨_, most⟩ := (range_eq _ 0 100 (by decide) n).mp bounds
  rw [decimalPlaces, value]
  exact .ok (by omega)

theorem historyCapacity_of_suits {n : Int}
    (h : suits (codePoints "history_size") (.number (.int n)) (settings.value "history_size") = true) :
    Returns settings.historyCapacity fun k => ∃ n ≤ 10000, k = some n := by
  obtain ⟨n, value, bounds⟩ := exists_int_of_suits h
  have ⟨least, most⟩ := (range_eq _ 0 10000 (by decide) n).mp bounds
  have countable : ¬(n < -capacityLimit ∨ capacityLimit ≤ n) := by
    rw [capacityLimit]
    omega
  rw [historyCapacity, value]
  show Returns (if _ then _ else _) _
  rw [if_neg countable, if_neg (not_lt.mpr least)]
  exact .ok ⟨n.toNat, by omega, rfl⟩

theorem Valid.historyCapacity_returns (h : Valid settings) :
    Returns settings.historyCapacity fun k => ∃ n ≤ 10000, k = some n :=
  historyCapacity_of_suits (h.suits_value "history_size" rfl)

/-- A change that is accepted leaves a bound for the history where there is one. -/
theorem historyCapacity_put {name : CodePoints} (suited : isValid? name value = some true)
    (bounded : ∃ n, settings.historyCapacity = .ok (some n)) :
    ∃ n, Settings.historyCapacity (settings.put name value) = .ok (some n) := by
  by_cases same : codePoints "history_size" = name
  · subst same
    rw [isValid?_eq_some rfl] at suited
    have changed : suits (codePoints "history_size") (.number (.int 50))
        (Settings.value (settings.put (codePoints "history_size") value) "history_size") = true := by
      rw [Settings.value, Entries.get?_put_self]
      exact Option.some.inj suited
    obtain ⟨_, capacity, n, _, rfl⟩ := historyCapacity_of_suits changed
    exact ⟨n, capacity⟩
  · rw [historyCapacity, Settings.value, Entries.get?_put_of_ne value settings same]
    exact bounded

end Surd.Settings
