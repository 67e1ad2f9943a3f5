import Surd.Store.Basic
import Surd.Proofs.Entries
import Mathlib.Data.List.Induction

/-!
# Stores after calls

A store is used through four calls: `define` and `setAnswer` bind a name, `delete` and `clear` remove names, and a call
that is refused leaves the store as it was. After any calls the store is a map with the constants in front
(`Store.Records`): a name that is no constant has the value that it was bound to last, if it was not removed since, and
the names stand in the order in which they were bound first since they were last removed.

One call either binds a name, removes one, removes all, or changes nothing (`Store.Moves`). What every call keeps holds
after all of them, by induction from the last one.
-/

namespace Surd.Store

/-! ## Calls -/

/-- A call that is to change a store. -/
inductive Call where
  | define (name : String) (value : Number)
  | setAnswer (value : Number)
  | delete (name : String)
  | clear

/-- The store after a call, or the problem with which it is refused. -/
def Call.run (s : Store) : Call → Except Problem Store
  | define name value => s.define name value
  | setAnswer value => .ok (s.setAnswer value)
  | delete name => s.delete name
  | clear => .ok s.clear

/-- The store after a call that may be refused. -/
def attempt (s : Store) (c : Call) : Store :=
  match c.run s with
  | .ok s' => s'
  | .error _ => s

/-- The store after calls, the constants being there before the first. -/
def after (calls : List Call) : Store := calls.foldl attempt initial

/-- The names that can be bound by `define`. -/
structure Bindable (name : String) : Prop where
  form : isName name = true
  noFunction : name ∉ functionNames
  free : isConstant name = false

variable {s s' : Store} {calls : List Call} {c : Call} {name other : String} {value v w : Number} {i : Nat}
  {user user' : Entries String Number} {p : Problem}

theorem define_eq_ok_iff : s.define name value = .ok s' ↔ Bindable name ∧ s' = ⟨s.bindings.put name value⟩ := by
  rw [define]
  constructor
  · intro h
    split_ifs at h with unfit constant
    rw [Bool.or_eq_true, not_or] at unfit
    exact ⟨⟨by simpa using unfit.1, by simpa using unfit.2, eq_false_of_ne_true constant⟩, (Except.ok.inj h).symm⟩
  · rintro ⟨⟨form, noFunction, free⟩, rfl⟩
    simp [form, noFunction, free]

theorem attempt_of_ok (h : c.run s = .ok s') : s.attempt c = s' := by rw [attempt, h]

theorem attempt_of_error (h : c.run s = .error p) : s.attempt c = s := by rw [attempt, h]

theorem after_concat (calls : List Call) (c : Call) : after (calls ++ [c]) = (after calls).attempt c := by
  rw [after, List.foldl_append]
  rfl

/-- A call that is refused might as well not have been made. -/
theorem after_of_error (h : c.run (after calls) = .error p) (more : List Call) :
    after (calls ++ c :: more) = after (calls ++ more) := by
  have kept : (calls.foldl attempt initial).attempt c = calls.foldl attempt initial := attempt_of_error h
  rw [after, after, List.foldl_append, List.foldl_append, List.foldl_cons, kept]

/-! ## What calls do to a name -/

/-- The call, made on the store, binds the name to the value. -/
def Call.Binds (s : Store) (c : Call) (name : String) (value : Number) : Prop :=
  (c = .define name value ∧ ∃ s', s.define name value = .ok s') ∨ (c = .setAnswer value ∧ name = answerName)

/-- The call removes the name, bound or not, if it may be removed. -/
def Call.Removes (c : Call) (name : String) : Prop := c = .delete name ∨ c = .clear

/-- The call with this number, counted from zero, binds the name to the value. -/
def BindsAt (calls : List Call) (i : Nat) (name : String) (value : Number) : Prop :=
  ∃ c, calls[i]? = some c ∧ c.Binds (after (calls.take i)) name value

/-- The call with this number removes the name. -/
def RemovesAt (calls : List Call) (i : Nat) (name : String) : Prop := ∃ c, calls[i]? = some c ∧ c.Removes name

/-- The calls bound the name to the value, and no later one binds or removes it. -/
def LastBound (calls : List Call) (name : String) (value : Number) : Prop :=
  ∃ i, BindsAt calls i name value ∧ ∀ j > i, ¬RemovesAt calls j name ∧ ∀ w, ¬BindsAt calls j name w

/-- The call with this number is the first to bind the name since it was last removed. -/
structure FirstBound (calls : List Call) (i : Nat) (name : String) : Prop where
  binds : ∃ value, BindsAt calls i name value
  stays : ∀ j > i, ¬RemovesAt calls j name
  first : ∀ j < i, ∀ value, BindsAt calls j name value → ∃ k, j < k ∧ k < i ∧ RemovesAt calls k name

/-- Since each was last removed, the one name was bound before the other. -/
def FirstBefore (calls : List Call) (name other : String) : Prop :=
  ∃ i j, FirstBound calls i name ∧ FirstBound calls j other ∧ i < j

theorem Call.Binds.unique (h : c.Binds s name v) (h' : c.Binds s other w) : name = other ∧ v = w := by
  obtain ⟨rfl, -⟩ | ⟨rfl, rfl⟩ := h <;> obtain ⟨same, -⟩ | ⟨same, rfl⟩ := h' <;> cases same <;> exact ⟨rfl, rfl⟩

theorem Call.Binds.not_removes (h : c.Binds s name v) (other : String) : ¬c.Removes other := by
  obtain ⟨rfl, -⟩ | ⟨rfl, -⟩ := h <;> rintro (same | same) <;> cases same

theorem BindsAt.lt (h : BindsAt calls i name v) : i < calls.length := by
  obtain ⟨c, there, _⟩ := h
  exact (List.getElem?_eq_some_iff.mp there).1

theorem RemovesAt.lt (h : RemovesAt calls i name) : i < calls.length := by
  obtain ⟨c, there, _⟩ := h
  exact (List.getElem?_eq_some_iff.mp there).1

/-! ### One call more -/

theorem bindsAt_concat_of_lt (h : i < calls.length) :
    BindsAt (calls ++ [c]) i name v ↔ BindsAt calls i name v := by
  rw [BindsAt, BindsAt, List.getElem?_append_left h, List.take_append_of_le_length (Nat.le_of_lt h)]

theorem removesAt_concat_of_lt (h : i < calls.length) :
    RemovesAt (calls ++ [c]) i name ↔ RemovesAt calls i name := by
  rw [RemovesAt, RemovesAt, List.getElem?_append_left h]

theorem bindsAt_concat_length :
    BindsAt (calls ++ [c]) calls.length name v ↔ c.Binds (after calls) name v := by
  simp [BindsAt]

theorem removesAt_concat_length : RemovesAt (calls ++ [c]) calls.length name ↔ c.Removes name := by
  simp [RemovesAt]

/-- The calls of one more are those that were there, and the last. -/
theorem lt_or_eq_of_lt_concat (h : i < (calls ++ [c]).length) : i < calls.length ∨ i = calls.length := by
  rw [List.length_append, List.length_singleton] at h
  omega

theorem not_removesAt_concat (stays : ∀ j > i, ¬RemovesAt calls j name) (spared : ¬c.Removes name) :
    ∀ j > i, ¬RemovesAt (calls ++ [c]) j name := by
  intro j hj removed
  obtain hl | rfl := lt_or_eq_of_lt_concat removed.lt
  · exact stays j hj ((removesAt_concat_of_lt hl).mp removed)
  · exact spared (removesAt_concat_length.mp removed)

/-- What was bound last, one call later. -/
theorem lastBound_concat : LastBound (calls ++ [c]) name v ↔
    c.Binds (after calls) name v ∨
      LastBound calls name v ∧ ¬c.Removes name ∧ ∀ w, ¬c.Binds (after calls) name w := by
  constructor
  · rintro ⟨i, bound, stays⟩
    obtain hl | rfl := lt_or_eq_of_lt_concat bound.lt
    · obtain ⟨spared, unbound⟩ := stays calls.length hl
      refine .inr ⟨⟨i, (bindsAt_concat_of_lt hl).mp bound, fun j hj => ⟨fun removed => ?_, fun w again => ?_⟩⟩, ?_, ?_⟩
      · exact (stays j hj).1 ((removesAt_concat_of_lt removed.lt).mpr removed)
      · exact (stays j hj).2 w ((bindsAt_concat_of_lt again.lt).mpr again)
      · exact fun removes => spared (removesAt_concat_length.mpr removes)
      · exact fun w binds => unbound w (bindsAt_concat_length.mpr binds)
    · exact .inl (bindsAt_concat_length.mp bound)
  · rintro (binds | ⟨⟨i, bound, stays⟩, spared, unbound⟩)
    · refine ⟨calls.length, bindsAt_concat_length.mpr binds, fun j hj => ⟨fun removed => ?_, fun w again => ?_⟩⟩
      · obtain hl | rfl := lt_or_eq_of_lt_concat removed.lt <;> omega
      · obtain hl | rfl := lt_or_eq_of_lt_concat again.lt <;> omega
    · refine ⟨i, (bindsAt_concat_of_lt bound.lt).mpr bound, fun j hj => ⟨?_, fun w again => ?_⟩⟩
      · exact not_removesAt_concat (fun j hj => (stays j hj).1) spared j hj
      · obtain hl | rfl := lt_or_eq_of_lt_concat again.lt
        · exact (stays j hj).2 w ((bindsAt_concat_of_lt hl).mp again)
        · exact unbound w (bindsAt_concat_length.mp again)

/-- A name that was bound and not removed since has a last binding. -/
theorem exists_lastBound {i : Nat} {v : Number} (bound : BindsAt calls i name v)
    (stays : ∀ j > i, ¬RemovesAt calls j name) : ∃ w, LastBound calls name w := by
  by_cases again : ∃ j > i, ∃ w, BindsAt calls j name w
  · obtain ⟨j, hj, w, bound'⟩ := again
    have := bound'.lt
    exact exists_lastBound bound' fun k hk => stays k (Nat.lt_trans hj hk)
  · exact ⟨v, i, bound, fun j hj => ⟨stays j hj, fun w bound' => again ⟨j, hj, w, bound'⟩⟩⟩
termination_by calls.length - i

theorem FirstBound.concat (h : FirstBound calls i name) (spared : ¬c.Removes name) :
    FirstBound (calls ++ [c]) i name := by
  obtain ⟨value, bound⟩ := h.binds
  refine ⟨⟨value, (bindsAt_concat_of_lt bound.lt).mpr bound⟩, not_removesAt_concat h.stays spared, ?_⟩
  intro j hj w bound'
  obtain ⟨k, hjk, hki, removed⟩ := h.first j hj w ((bindsAt_concat_of_lt (Nat.lt_trans hj bound.lt)).mp bound')
  exact ⟨k, hjk, hki, (removesAt_concat_of_lt removed.lt).mpr removed⟩

/-- A name without a last binding is bound first by the next call that binds it. -/
theorem firstBound_concat (binds : c.Binds (after calls) name v) (unbound : ∀ w, ¬LastBound calls name w) :
    FirstBound (calls ++ [c]) calls.length name := by
  refine ⟨⟨v, bindsAt_concat_length.mpr binds⟩, fun j hj removed => ?_, fun j hj w bound => ?_⟩
  · obtain hl | rfl := lt_or_eq_of_lt_concat removed.lt <;> omega
  · by_contra none_removes
    obtain ⟨w, last⟩ := exists_lastBound ((bindsAt_concat_of_lt hj).mp bound) fun k hk removed =>
      none_removes ⟨k, hk, removed.lt, (removesAt_concat_of_lt removed.lt).mpr removed⟩
    exact unbound w last

/-! ## The names beside the constants -/

/-- The store has the constants, and behind them these entries with other names. -/
structure Extends (s : Store) (user : Entries String Number) : Prop where
  bindings : s.bindings = constants ++ user
  free : ∀ name ∈ user.names, isConstant name = false
  distinct : user.names.Nodup

/-- What a call does to the entries behind the constants. -/
inductive Moves (s : Store) (c : Call) (user : Entries String Number) : Entries String Number → Prop
  | bound {name : String} {v : Number} (binds : c.Binds s name v) : Moves s c user (user.put name v)
  | removed {name : String} (removes : c = .delete name) : Moves s c user (user.erase name)
  | cleared (removes : c = .clear) : Moves s c user []
  | kept (quiet : ∀ name v, ¬c.Binds s name v) (spares : ∀ name ∈ user.names, ¬c.Removes name) : Moves s c user user

theorem isConstant_iff : isConstant name = true ↔ name ∈ constants.names := Entries.has_iff

theorem not_mem_constants (h : isConstant name = false) : name ∉ constants.names := by
  rw [← isConstant_iff, h]
  exact Bool.false_ne_true

namespace Extends

theorem initial : Extends initial [] := ⟨rfl, List.forall_mem_nil _, List.nodup_nil⟩

theorem put (h : Extends s user) (free : isConstant name = false) (value : Number) :
    Extends ⟨s.bindings.put name value⟩ (user.put name value) where
  bindings := by rw [h.bindings, Entries.put_append_of_not_mem (not_mem_constants free)]
  free other there := by
    obtain rfl | there := Entries.mem_names_of_mem_names_put there
    · exact free
    · exact h.free other there
  distinct := Entries.nodup_names_put h.distinct name value

theorem erase (h : Extends s user) (free : isConstant name = false) :
    Extends ⟨s.bindings.erase name⟩ (user.erase name) where
  bindings := by rw [h.bindings, Entries.erase_append_of_not_mem (not_mem_constants free)]
  free other there := h.free other ((Entries.names_erase_sublist name user).subset there)
  distinct := Entries.nodup_names_erase h.distinct name

/-- A call moves the entries behind the constants, and leaves the constants in front. -/
theorem attempt (h : Extends s user) (c : Call) : ∃ user', Extends (s.attempt c) user' ∧ Moves s c user user' := by
  cases c with
  | define name value =>
      cases run : (Call.define name value).run s with
      | ok s' =>
          obtain ⟨bindable, rfl⟩ := define_eq_ok_iff.mp run
          rw [attempt_of_ok run]
          exact ⟨_, h.put bindable.free value, .bound (.inl ⟨rfl, _, run⟩)⟩
      | error p =>
          rw [attempt_of_error run]
          refine ⟨user, h, .kept ?_ ?_⟩
          · rintro _ _ (⟨⟨⟩, s', defined⟩ | ⟨⟨⟩, _⟩)
            cases run.symm.trans defined
          · rintro _ _ (⟨⟨⟩⟩ | ⟨⟨⟩⟩)
  | setAnswer value => exact ⟨_, h.put (by decide) value, .bound (.inr ⟨rfl, rfl⟩)⟩
  | delete name =>
      cases free : isConstant name with
      | false =>
          have run : (Call.delete name).run s = .ok ⟨s.bindings.erase name⟩ := by
            simp [Call.run, delete, free]
          rw [attempt_of_ok run]
          exact ⟨_, h.erase free, .removed rfl⟩
      | true =>
          have run : (Call.delete name).run s = .error (.constantDeleted name) := by
            simp [Call.run, delete, free]
          rw [attempt_of_error run]
          refine ⟨user, h, .kept ?_ ?_⟩
          · rintro _ _ (⟨⟨⟩, _⟩ | ⟨⟨⟩, _⟩)
          · rintro other there (⟨⟨⟩⟩ | ⟨⟨⟩⟩)
            cases free.symm.trans (h.free name there)
  | clear => exact ⟨[], .initial, .cleared rfl⟩

theorem userBindings_eq (h : Extends s user) : s.userBindings = user := by
  have none_constant : constants.filter (fun b => !isConstant b.1) = [] := by decide
  have all_free : user.filter (fun b => !isConstant b.1) = user := by
    apply List.filter_eq_self.mpr
    intro b hb
    rw [h.free b.1 (List.mem_map_of_mem hb)]
    rfl
  rw [userBindings, h.bindings, List.filter_append, none_constant, all_free, List.nil_append]

theorem get?_of_constant (h : Extends s user) (constant : isConstant name = true) :
    s.get? name = constants.get? name := by
  obtain ⟨value, found⟩ := Entries.exists_get?_of_mem (isConstant_iff.mp constant)
  rw [get?, h.bindings, Entries.get?_append, found]
  rfl

theorem get?_of_free (h : Extends s user) (free : isConstant name = false) : s.get? name = user.get? name := by
  rw [get?, h.bindings, Entries.get?_append, Entries.get?_eq_none (not_mem_constants free)]
  rfl

end Extends

/-! ## What all calls keep -/

/-- The entries are the names that the calls bound and did not remove since, in the order of their first bindings. -/
structure Tracks (calls : List Call) (user : Entries String Number) : Prop where
  get?_iff : ∀ name value, user.get? name = some value ↔ LastBound calls name value
  first : ∀ name ∈ user.names, ∃ i, FirstBound calls i name
  order : user.names.Pairwise (FirstBefore calls)

theorem FirstBefore.concat (h : FirstBefore calls name other) (spared : ¬c.Removes name) (spared' : ¬c.Removes other) :
    FirstBefore (calls ++ [c]) name other := by
  obtain ⟨i, j, first, first', before⟩ := h
  exact ⟨i, j, first.concat spared, first'.concat spared', before⟩

namespace Tracks

theorem nil : Tracks [] [] where
  get?_iff name value := by
    constructor
    · rintro ⟨⟩
    · rintro ⟨i, bound, _⟩
      exact absurd bound.lt (Nat.not_lt_zero i)
  first := List.forall_mem_nil _
  order := .nil

/-- Names that a call spares stay in order. -/
theorem spared (h : Tracks calls user) {names : List String} (kept : names.Sublist user.names)
    (spares : ∀ name ∈ names, ¬c.Removes name) :
    (∀ name ∈ names, ∃ i, FirstBound (calls ++ [c]) i name) ∧ names.Pairwise (FirstBefore (calls ++ [c])) := by
  constructor
  · intro name there
    obtain ⟨i, first⟩ := h.first name (kept.subset there)
    exact ⟨i, first.concat (spares name there)⟩
  · exact (h.order.sublist kept).imp_of_mem fun there there' before =>
      before.concat (spares _ there) (spares _ there')

theorem bound (h : Tracks calls user) (binds : c.Binds (after calls) name v) :
    Tracks (calls ++ [c]) (user.put name v) := by
  obtain ⟨first, order⟩ := h.spared (List.Sublist.refl _) fun other _ => binds.not_removes other
  have get?_iff : ∀ other w, (user.put name v).get? other = some w ↔ LastBound (calls ++ [c]) other w := by
    intro other w
    rw [lastBound_concat]
    by_cases same : other = name
    · subst same
      rw [Entries.get?_put_self, Option.some.injEq]
      constructor
      · rintro rfl
        exact .inl binds
      · rintro (binds' | ⟨-, -, unbound⟩)
        · exact (binds.unique binds').2
        · exact absurd binds (unbound v)
    · have elsewhere : ∀ w, ¬c.Binds (after calls) other w := fun w binds' => same (binds.unique binds').1.symm
      rw [Entries.get?_put_of_ne v user same, h.get?_iff]
      exact ⟨fun last => .inr ⟨last, binds.not_removes other, elsewhere⟩,
        fun last => (last.resolve_left (elsewhere w)).1⟩
  by_cases there : name ∈ user.names
  · exact ⟨get?_iff, (Entries.names_put_of_mem there v).symm ▸ first, (Entries.names_put_of_mem there v).symm ▸ order⟩
  · have unbound : ∀ w, ¬LastBound calls name w := by
      intro w last
      have found := (h.get?_iff name w).mpr last
      exact there (List.mem_map_of_mem (Entries.mem_of_get? found))
    have last := firstBound_concat binds unbound
    refine ⟨get?_iff, ?_, ?_⟩
    · rw [Entries.names_put_of_not_mem there]
      intro other there'
      obtain there' | there' := List.mem_append.mp there'
      · exact first other there'
      · exact ⟨calls.length, List.mem_singleton.mp there' ▸ last⟩
    · rw [Entries.names_put_of_not_mem there, List.pairwise_append]
      refine ⟨order, List.pairwise_singleton _ _, fun other there' _ new => ?_⟩
      obtain rfl := List.mem_singleton.mp new
      obtain ⟨i, bound⟩ := h.first other there'
      obtain ⟨_, bound'⟩ := bound.binds
      exact ⟨i, calls.length, bound.concat (binds.not_removes other), last, bound'.lt⟩

/-- The last call moves the entries as it moves the names that were bound last. -/
theorem concat (h : Tracks calls user) (distinct : user.names.Nodup) (moves : Moves (after calls) c user user') :
    Tracks (calls ++ [c]) user' := by
  cases moves with
  | bound binds => exact h.bound binds
  | @removed name removes =>
      subst removes
      have spares : ∀ other ∈ (user.erase name).names, ¬(Call.delete name).Removes other := by
        rintro other there (⟨⟨⟩⟩ | ⟨⟨⟩⟩)
        exact Entries.not_mem_names_erase distinct name there
      obtain ⟨first, order⟩ := h.spared (Entries.names_erase_sublist name user) spares
      refine ⟨fun other w => ?_, first, order⟩
      have unbound : ∀ w, ¬(Call.delete name).Binds (after calls) other w := by
        rintro w (⟨⟨⟩, _⟩ | ⟨⟨⟩, _⟩)
      rw [lastBound_concat, or_iff_right (unbound w)]
      by_cases same : other = name
      · subst same
        rw [Entries.get?_erase_self distinct]
        exact ⟨nofun, fun last => absurd (.inl rfl) last.2.1⟩
      · rw [Entries.get?_erase_of_ne same, h.get?_iff]
        refine ⟨fun last => ⟨last, ?_, unbound⟩, And.left⟩
        rintro (⟨⟨⟩⟩ | ⟨⟨⟩⟩)
        exact same rfl
  | cleared removes =>
      subst removes
      refine ⟨fun other w => ?_, List.forall_mem_nil _, .nil⟩
      rw [lastBound_concat]
      constructor
      · rintro ⟨⟩
      · rintro ((⟨⟨⟩, _⟩ | ⟨⟨⟩, _⟩) | ⟨-, spared, -⟩)
        exact absurd (.inr rfl) spared
  | kept quiet spares =>
      obtain ⟨first, order⟩ := h.spared (List.Sublist.refl _) spares
      refine ⟨fun other w => ?_, first, order⟩
      rw [lastBound_concat, or_iff_right (quiet other w), h.get?_iff]
      refine ⟨fun last => ⟨last, ?_, quiet other⟩, And.left⟩
      have found := (h.get?_iff other w).mpr last
      exact spares other (List.mem_map_of_mem (Entries.mem_of_get? found))

end Tracks

/-- After any calls the store has the constants, and behind them what the calls bound last. -/
theorem exists_tracks (calls : List Call) : ∃ user, Extends (after calls) user ∧ Tracks calls user := by
  induction calls using List.reverseRecOn with
  | nil => exact ⟨[], .initial, .nil⟩
  | append_singleton calls c ih =>
      obtain ⟨user, extends_, tracks⟩ := ih
      obtain ⟨user', extends', moves⟩ := extends_.attempt c
      rw [after_concat]
      exact ⟨user', extends', tracks.concat extends_.distinct moves⟩

/-! ## The store as a map -/

/-- The store is the map that the calls make: the constants, and each other name with the value that it was bound to
last, if it was not removed since. -/
structure Records (calls : List Call) (s : Store) : Prop where
  constants : ∀ name, isConstant name = true → s.get? name = constants.get? name
  get?_iff : ∀ name, isConstant name = false → ∀ value, s.get? name = some value ↔ LastBound calls name value
  userBindings_iff : ∀ name value, s.userBindings.get? name = some value ↔
    isConstant name = false ∧ LastBound calls name value
  has_iff : ∀ name, s.has name = true ↔ isConstant name = true ∨ ∃ value, LastBound calls name value
  /-- The constants come first, and no name comes twice. -/
  names : s.names = Surd.constants.names ++ s.userBindings.names ∧ s.names.Nodup
  /-- The other names come in the order in which they were bound first. -/
  order : s.userBindings.names.Pairwise (FirstBefore calls)
  size : s.size = s.names.length

/-- **The store is a map with protected constants.** After any calls, refused ones included, it is the map that they
make, and a call that is refused changes nothing. -/
theorem after_records (calls : List Call) :
    Records calls (after calls) ∧
      ∀ c p, c.run (after calls) = .error p → ∀ more, after (calls ++ c :: more) = after (calls ++ more) := by
  obtain ⟨user, whole, tracks⟩ := exists_tracks calls
  have user_eq := whole.userBindings_eq
  have names_eq : (after calls).names = Surd.constants.names ++ user.names := by
    rw [names, whole.bindings, Entries.names, List.map_append]
    rfl
  have mem_user : ∀ name, name ∈ user.names ↔ ∃ value, LastBound calls name value := by
    intro name
    rw [← Entries.has_iff, Entries.has, Option.isSome_iff_exists]
    exact exists_congr (tracks.get?_iff name)
  constructor
  · exact {
      constants := fun name => whole.get?_of_constant
      get?_iff := fun name free value => by rw [whole.get?_of_free free, tracks.get?_iff]
      userBindings_iff := fun name value => by
        rw [user_eq, tracks.get?_iff]
        exact ⟨fun last => ⟨whole.free name ((mem_user name).mpr ⟨value, last⟩), last⟩, And.right⟩
      has_iff := fun name => by
        rw [isConstant_iff, ← mem_user, ← List.mem_append, ← names_eq]
        exact Entries.has_iff
      names := by
        rw [names_eq, user_eq, List.nodup_append]
        refine ⟨rfl, by decide, whole.distinct, ?_⟩
        rintro name constant _ there rfl
        exact not_mem_constants (whole.free name there) constant
      order := user_eq ▸ tracks.order
      size := (List.length_map _).symm }
  · exact fun c p => after_of_error

/-- A constant is not bound again. -/
theorem after_records_define_pi :
    Records [.setAnswer (.int 1)] (after [.setAnswer (.int 1)]) ∧
    after ([.setAnswer (.int 1)] ++ [.define "pi" (.int 3), .define "x" (.int 2)]) =
      after ([.setAnswer (.int 1)] ++ [.define "x" (.int 2)]) := by
  obtain ⟨records, refused⟩ := after_records [.setAnswer (.int 1)]
  exact ⟨records, refused (.define "pi" (.int 3)) (.constantRedefined "pi") rfl _⟩

/-- A name that was removed and bound again comes last. -/
example : (after [.define "x" (.int 1), .setAnswer (.int 2), .delete "x", .define "x" (.int 3)]).names =
    ["e", "pi", "PI", "ans", "x"] := by decide

end Surd.Store
