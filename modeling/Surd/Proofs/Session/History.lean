import Surd.Proofs.Session.Turn

/-!
# The length of the history

The history has room for as many results as the settings say when the session starts. It holds the results of the
session up to that number, also after the setting was changed (`length_history_after`).
-/

namespace Surd

namespace Session

variable {lib : Elementary} {world : World} {s s' : Session} {cs : List Char} {reply : Reply} {n : Nat}

instance : DecidablePred IsExpression := fun _ => inferInstanceAs (Decidable (_ ∧ _ ∧ _))

/-- Whether a line without blanks at its ends is an expression that gave a result. -/
def isResult (cs : List Char) : Reply → Bool
  | .done _ => IsExpression cs
  | _ => false

/-- How many lines give a result, one after the other. -/
def resultCount (lib : Elementary) : Session → List (World × String) → Nat
  | _, [] => 0
  | s, (world, line) :: lines =>
    (isResult (trim line.toList) (s.handle lib world line).2).toNat + resultCount lib (s.handle lib world line).1 lines

theorem isResult_of_not (h : ¬IsExpression cs) : isResult cs reply = false := by
  cases reply with
  | done => exact decide_eq_false h
  | failed | broken => rfl

theorem length_remember (h : s.capacity = some n) (line : String) (lines : List String) :
    (s.remember line lines).length = min n (s.history.length + 1) := by
  rw [remember, h]
  dsimp only
  rw [List.length_drop, List.length_append, List.length_singleton]
  omega

namespace Turn

/-- The room for results is that of the start. -/
theorem capacity (turn : Turn lib world s cs s' reply) : s'.capacity = s.capacity := by
  cases turn with
  | command _ carried => exact (effect_command carried).kept.capacity
  | blank | failed | broken | result | definition | unshown => rfl

/-- Where the settings give a bound, they do so after a turn. -/
theorem historyCapacity (turn : Turn lib world s cs s' reply)
    (bounded : ∃ k, s.settings.historyCapacity = .ok (some k)) :
    ∃ k, s'.settings.historyCapacity = .ok (some k) := by
  obtain ⟨_, settings⟩ | ⟨name, value, settings, updated, changed⟩ | cut := turn.settings
  · rwa [settings]
  · rw [changed]
    exact Settings.historyCapacity_put (SettingsFile.update_eq_ok updated).1 bounded
  · obtain ⟨_, rfl⟩ := cut.exists_file
    exact bounded

/-- A result is one more in the history, as long as there is room. -/
theorem length_history (turn : Turn lib world s cs s' reply) (h : s.capacity = some n) (within : s.history.length ≤ n) :
    s'.history.length = min n (s.history.length + (isResult cs reply).toNat) := by
  have still : s.history.length = min n (s.history.length + false.toNat) := (min_eq_right within).symm
  cases turn with
  | blank empty => rwa [isResult_of_not fun expression => expression.1 empty]
  | failed => exact still
  | broken => exact still
  | command written carried =>
      subst written
      rw [isResult_of_not fun expression => expression.2.1 rfl, (effect_command carried).kept.history]
      exact still
  | result expression =>
      rw [isResult, decide_eq_true expression]
      exact length_remember h _ _
  | definition _ defines =>
      rw [isResult_of_not fun expression => by rw [expression.2.2] at defines; cases defines]
      exact still
  | unshown => exact still

end Turn

theorem length_history_of_start (lib : Elementary) (h : s.capacity = some n) (within : s.history.length ≤ n)
    (lines : List (World × String)) :
    (s.after lib lines).history.length = min n (s.history.length + s.resultCount lib lines) := by
  induction lines generalizing s with
  | nil => exact (min_eq_right within).symm
  | cons l lines ih =>
      obtain ⟨world, line⟩ := l
      have turn := turn_handle lib s world line
      have length := turn.length_history h within
      rw [after_cons, resultCount, ih (turn.capacity.trans h) (by rw [length]; exact min_le_left _ _), length]
      omega

/-- The history has as many entries as there were results, up to the bound that the settings had at the start. It is
within the bound of the current settings exactly where that bound is not below the first one, or not below the number of
results: a lower bound has no effect on a running session. -/
theorem length_history_after (lib : Elementary) {nesting : Nat} {file : SettingsFile} {given : Option Settings}
    (starts : Session.start nesting file given = .ok s) (bounded : s.capacity = some n)
    (lines : List (World × String)) :
    (s.after lib lines).history.length = min n (s.resultCount lib lines) ∧
      ∃ k, (s.after lib lines).settings.historyCapacity = .ok (some k) ∧
        ((s.after lib lines).history.length ≤ k ↔ n ≤ k ∨ s.resultCount lib lines ≤ k) := by
  have started := started_of_start starts
  have settled := started.settled
  rw [bounded] at settled
  have length := length_history_of_start lib bounded (by rw [started.history]; exact Nat.zero_le n) lines
  rw [started.history, List.length_nil, Nat.zero_add] at length
  obtain ⟨k, current⟩ := after_keeps lib (P := fun s => ∃ k, s.settings.historyCapacity = .ok (some k))
    Turn.historyCapacity ⟨n, settled⟩ lines
  refine ⟨length, k, current, ?_⟩
  rw [length, min_le_iff]

/-- A history of two results after its setting was changed to none. -/
theorem length_history_after_smaller :
    (fresh.after .machine (calmly ["1", ":set history_size 0", "2"])).history.length = 2 ∧
      (fresh.after .machine (calmly ["1", ":set history_size 0", "2"])).settings.historyCapacity = .ok (some 0) := by
  obtain ⟨length, _⟩ := length_history_after .machine start_fresh rfl (calmly ["1", ":set history_size 0", "2"])
  constructor
  · rw [length]
    decide +kernel
  · decide +kernel

end Session

end Surd
