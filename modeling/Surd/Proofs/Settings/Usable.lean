import Surd.Proofs.Settings.Loading
import Surd.Proofs.Number.Finite

/-!
# What a settings file gives

The settings of a legible file are drawn from the members of its object, of which there are none if it holds no object:
a known name has the value of its member if that is usable and its default if not, and any other name has the value of
its member (`Drawn`). A known setting is usable if it is of the kind of its default, finite and in its range.
-/

namespace Surd

open Json (ReadableMembers)

variable {nesting : Nat} {s : String} {settings members : Settings} {name : CodePoints} {value default : Json}
  {a : Number}

namespace Settings

/-! ## Usable values -/

/-- Between the ends of the range of a setting, both included. -/
def Within (name : CodePoints) (x : ℝ) : Prop := (range name).1.toReal ≤ x ∧ x ≤ (range name).2.toReal

/-- What the value of a setting with this name and default has to be: a truth value, a whole number or a finite double
in the range, and a level of the log. The truth values are no numbers, and only a default that is a double admits
doubles. -/
inductive Usable (name : CodePoints) : Json → Json → Prop
  | switch (default value : Bool) : Usable name (.bool default) (.bool value)
  | whole (default : Number) {n : Int} (within : Within name n) : Usable name (.number default) (.number (.int n))
  | double (default : Double) {x : Double} (finite : x.isFinite = true) (within : Within name x.toReal) :
      Usable name (.number (.real default)) (.number (.real x))
  | level (default : CodePoints) {text : CodePoints} (named : isLogLevel text = true) :
      Usable name (.string default) (.string text)

theorem bounded_range (name : CodePoints) : (range name).1.Bounded ∧ (range name).2.Bounded := by
  unfold range
  split_ifs <;> exact ⟨trivial, trivial⟩

theorem inRange_iff (h : a.Bounded) : inRange name a = true ↔ Within name a.toReal := by
  rw [inRange, Bool.and_eq_true, Number.le_iff (bounded_range name).1 h, Number.le_iff h (bounded_range name).2]
  rfl

theorem inRange_int {n : Int} : inRange name (.int n) = true ↔ Within name n := inRange_iff (Number.bounded_int n)

theorem inRange_real {x : Double} (finite : x.isFinite = true) :
    inRange name (.real x) = true ↔ Within name x.toReal :=
  inRange_iff (Number.bounded_real finite)

theorem suits_iff : suits name default value = true ↔ Usable name default value := by
  constructor
  · intro h
    unfold suits at h
    split at h
    · exact .switch _ _
    · exact .whole _ (inRange_int.mp h)
    · exact .whole _ (inRange_int.mp h)
    · obtain ⟨finite, within⟩ := (Bool.and_eq_true _ _).mp h
      exact .double _ finite ((inRange_real finite).mp within)
    · exact .level _ h
    · cases h
  · rintro (_ | ⟨default, within⟩ | ⟨_, finite, within⟩ | ⟨_, named⟩)
    · rfl
    · cases default <;> exact inRange_int.mpr within
    · exact (Bool.and_eq_true _ _).mpr ⟨finite, (inRange_real finite).mpr within⟩
    · exact named

/-! ## Members over the defaults -/

/-- Settings that are drawn from the members of an object. -/
structure Drawn (members settings : Settings) : Prop where
  usable : ∀ name default, Entries.get? name defaults = some default →
    ∃ value, settings.get? name = some value ∧ Usable name default value
  given : ∀ name default value, Entries.get? name defaults = some default → members.get? name = some value →
    Usable name default value → settings.get? name = some value
  fallback : ∀ name default, Entries.get? name defaults = some default →
    (∀ value, members.get? name = some value → ¬Usable name default value) → settings.get? name = some default
  unknown : ∀ name, Entries.get? name defaults = none → settings.get? name = members.get? name

/-- The entries of an object are put over the defaults, but for those that do not suit. -/
theorem foldl_take (settings members : Settings) :
    members.foldl take settings = settings.merge (members.filter fun e => isValid? e.1 e.2 ≠ some false) := by
  rw [Entries.merge, List.foldl_filter]
  apply List.foldl_ext
  intro acc e _
  simp only [take, decide_eq_true_eq, ite_not]

theorem get?_foldl_take (distinct : (Entries.names members).Nodup) (name : CodePoints) :
    Entries.get? name (members.foldl take settings) =
      ((members.get? name).filter fun value => isValid? name value ≠ some false).or (settings.get? name) := by
  have sub : ((Entries.names (members.filter fun e => isValid? e.1 e.2 ≠ some false))).Nodup :=
    (List.filter_sublist.map Prod.fst).nodup distinct
  rw [foldl_take, Entries.get?_merge sub, Entries.get?_filter distinct]

/-- The value of a known setting is that of its member if it is usable, and its default if not. -/
theorem get?_known (distinct : (Entries.names members).Nodup) (known : Entries.get? name defaults = some default) :
    Entries.get? name (members.foldl take defaults) =
      ((members.get? name).filter (suits name default)).or (some default) := by
  rw [get?_foldl_take distinct, known]
  congr 2
  funext value
  rw [isValid?_eq_some known]
  cases suits name default value <;> rfl

theorem usable_default (known : Entries.get? name defaults = some default) : Usable name default default := by
  have suited := suited_defaults _ (Entries.mem_of_get? known)
  rw [isValid?_eq_some known] at suited
  exact suits_iff.mp (Bool.not_eq_false _ ▸ fun unsuited => suited (congrArg some unsuited))

theorem drawn_foldl_take (distinct : (Entries.names members).Nodup) : Drawn members (members.foldl take defaults) where
  usable := by
    intro name default known
    rw [get?_known distinct known]
    cases kept : (members.get? name).filter (suits name default) with
    | none => exact ⟨default, rfl, usable_default known⟩
    | some value => exact ⟨value, rfl, suits_iff.mp (Option.filter_eq_some_iff.mp kept).2⟩
  given := by
    intro name default value known found usable
    rw [get?_known distinct known, found, Option.filter_some_pos (suits_iff.mpr usable)]
    rfl
  fallback := by
    intro name default known unusable
    have dropped : (members.get? name).filter (suits name default) = none :=
      Option.filter_eq_none_iff.mpr fun value found suited => unusable value found (suits_iff.mp suited)
    rw [get?_known distinct known, dropped]
    rfl
  unknown := by
    intro name unknown
    have kept : ∀ value, decide (isValid? name value ≠ some false) = true := by simp [isValid?, unknown]
    simp only [get?_foldl_take distinct, unknown, kept, Option.or_none]
    cases members.get? name <;> rfl

/-- The members of the object that a text denotes; there are none if it denotes anything else. -/
def membersOf (nesting : Nat) (s : String) : Settings :=
  match Json.ofText nesting s.toList with
  | .ok (.object members) => members
  | _ => []

theorem distinct_membersOf (nesting : Nat) (s : String) : (Entries.names (membersOf nesting s)).Nodup := by
  unfold membersOf
  split
  · rename_i read
    exact (Json.readable_object_iff.mp (Json.readable_of_ofText read)).distinct
  · exact List.nodup_nil

end Settings

namespace SettingsFile

open Settings

theorem load_text (shallow : Json.ofText nesting s.toList ≠ .error .tooDeep) :
    load nesting (text s) = .ok ((membersOf nesting s).foldl take defaults) := by
  rw [load, membersOf]
  cases read : Json.ofText nesting s.toList with
  | ok value => cases value <;> rfl
  | error refusal =>
      cases refusal with
      | malformed => rfl
      | tooDeep => exact absurd read shallow

/-- A settings file with a text gives usable settings that are drawn from the members of its object, unless the text is
nested too deeply, however deep that is. This is exact where whole numbers may have any number of digits. -/
theorem load_usable (nesting : Nat) (s : String) :
    (load nesting (text s) = .error .nestedTooDeep ↔ Json.ofText nesting s.toList = .error .tooDeep) ∧
    (Returns (load nesting (text s)) (Drawn (membersOf nesting s)) ↔
      Json.ofText nesting s.toList ≠ .error .tooDeep) := by
  refine ⟨load_text_eq_nestedTooDeep_iff, ?_, ?_⟩
  · rintro ⟨settings, loaded, _⟩ deep
    rw [load_text_eq_nestedTooDeep_iff.mpr deep] at loaded
    cases loaded
  · intro shallow
    exact ⟨_, load_text shallow, drawn_foldl_take (distinct_membersOf nesting s)⟩

end SettingsFile

end Surd
