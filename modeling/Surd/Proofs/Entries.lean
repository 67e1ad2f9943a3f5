import Surd.Entries
import Mathlib.Data.List.Nodup

/-!
# The order of entries

Putting a value under a name keeps the names that are there in their order, and a new name comes last. Entries with
distinct names are determined by their names in order and by the value under each (`Entries.ext`).
-/

namespace Surd.Entries

variable {κ α : Type} [DecidableEq κ] {name other : κ} {value : α} {es later : Entries κ α}

/-! ## Values -/

theorem mem_of_get? (h : get? name es = some value) : (name, value) ∈ es := by
  induction es with
  | nil => cases h
  | cons e rest ih =>
      obtain ⟨n, v⟩ := e
      rw [get?] at h
      split at h
      · rename_i same
        obtain rfl := Option.some.inj h
        exact same ▸ List.mem_cons_self
      · exact List.mem_cons_of_mem _ (ih h)

theorem exists_get?_of_mem (h : name ∈ names es) : ∃ value, get? name es = some value := by
  induction es with
  | nil => cases h
  | cons e rest ih =>
      obtain ⟨n, v⟩ := e
      rw [get?]
      split
      · exact ⟨v, rfl⟩
      · rename_i other
        exact ih ((List.mem_cons.mp h).resolve_left fun same => other same.symm)

theorem get?_eq_none (h : name ∉ names es) : get? name es = none := by
  rw [Option.eq_none_iff_forall_ne_some]
  intro value found
  exact h (List.mem_map_of_mem (mem_of_get? found))

theorem mem_of_mem_put {e : κ × α} (h : e ∈ put name value es) : e = (name, value) ∨ e ∈ es := by
  induction es with
  | nil => exact .inl (List.mem_singleton.mp h)
  | cons entry rest ih =>
      obtain ⟨n, v⟩ := entry
      rw [put] at h
      split at h
      · rename_i same
        exact (List.mem_cons.mp h).imp (same ▸ ·) (List.mem_cons_of_mem _)
      · obtain rfl | h := List.mem_cons.mp h
        · exact .inr List.mem_cons_self
        · exact (ih h).imp_right (List.mem_cons_of_mem _)

theorem mem_names_of_mem_names_put (h : other ∈ names (put name value es)) : other = name ∨ other ∈ names es := by
  obtain ⟨e, he, rfl⟩ := List.mem_map.mp h
  exact (mem_of_mem_put he).imp (congrArg Prod.fst) List.mem_map_of_mem

theorem mem_of_mem_erase {e : κ × α} (h : e ∈ erase name es) : e ∈ es := by
  induction es with
  | nil => exact h
  | cons entry rest ih =>
      obtain ⟨n, v⟩ := entry
      rw [erase] at h
      split at h
      · exact List.mem_cons_of_mem _ h
      · obtain rfl | h := List.mem_cons.mp h
        · exact List.mem_cons_self
        · exact List.mem_cons_of_mem _ (ih h)

theorem get?_of_mem (distinct : (names es).Nodup) (h : (name, value) ∈ es) : get? name es = some value := by
  induction es with
  | nil => cases h
  | cons e rest ih =>
      obtain ⟨n, v⟩ := e
      obtain ⟨new, distinct⟩ := List.nodup_cons.mp distinct
      obtain ⟨⟨⟩⟩ | h := List.mem_cons.mp h
      · simp [get?]
      · have there : name ∈ names rest := List.mem_map_of_mem h
        have other : n ≠ name := fun same => new (same ▸ there)
        rw [get?, if_neg other, ih distinct h]

/-- The order of entries with distinct names does not matter for the value under a name. -/
theorem get?_of_perm {es' : Entries κ α} (h : es.Perm es') (distinct : (names es).Nodup) :
    get? name es = get? name es' := by
  ext value
  have distinct' : (names es').Nodup := (h.map Prod.fst).nodup_iff.mp distinct
  constructor
  · exact fun found => get?_of_mem distinct' (h.subset (mem_of_get? found))
  · exact fun found => get?_of_mem distinct (h.symm.subset (mem_of_get? found))

/-- Of entries with distinct names those that are kept keep their values. -/
theorem get?_filter (distinct : (names es).Nodup) (keeps : κ × α → Bool) (name : κ) :
    get? name (es.filter keeps) = (get? name es).filter fun value => keeps (name, value) := by
  induction es with
  | nil => rfl
  | cons e rest ih =>
      obtain ⟨n, v⟩ := e
      obtain ⟨new, distinct⟩ := List.nodup_cons.mp distinct
      by_cases same : n = name
      · subst same
        have gone : get? n (rest.filter keeps) = none := by rw [ih distinct, get?_eq_none new]; rfl
        cases kept : keeps (n, v) <;> simp [get?, kept, gone, Option.filter]
      · cases kept : keeps (n, v) <;> simp [get?, kept, same, ih distinct]

theorem get?_erase_of_ne (h : other ≠ name) (es : Entries κ α) : get? other (erase name es) = get? other es := by
  induction es with
  | nil => rfl
  | cons e rest ih =>
      obtain ⟨n, v⟩ := e
      rw [erase]
      split
      · rename_i same
        rw [get?, if_neg fun same' => h (same'.symm.trans same)]
      · rw [get?, get?, ih]

theorem has_iff : es.has name = true ↔ name ∈ names es := by
  rw [has, Option.isSome_iff_exists]
  constructor
  · rintro ⟨value, found⟩
    exact List.mem_map_of_mem (mem_of_get? found)
  · exact exists_get?_of_mem

/-! ## Entries behind others -/

theorem get?_append (name : κ) (es later : Entries κ α) :
    get? name (es ++ later) = (get? name es).or (get? name later) := by
  induction es with
  | nil => rfl
  | cons e rest ih =>
      obtain ⟨n, v⟩ := e
      rw [List.cons_append, get?, get?, ih]
      split <;> rfl

theorem put_append_of_not_mem (h : name ∉ names es) (value : α) (later : Entries κ α) :
    put name value (es ++ later) = es ++ put name value later := by
  induction es with
  | nil => rfl
  | cons e rest ih =>
      obtain ⟨n, v⟩ := e
      obtain ⟨other, missing⟩ := List.ne_and_not_mem_of_not_mem_cons h
      rw [List.cons_append, put, if_neg other.symm, ih missing]
      rfl

theorem erase_append_of_not_mem (h : name ∉ names es) (later : Entries κ α) :
    erase name (es ++ later) = es ++ erase name later := by
  induction es with
  | nil => rfl
  | cons e rest ih =>
      obtain ⟨n, v⟩ := e
      obtain ⟨other, missing⟩ := List.ne_and_not_mem_of_not_mem_cons h
      rw [List.cons_append, erase, if_neg other.symm, ih missing]
      rfl

/-! ## Names -/

theorem put_of_not_mem (h : name ∉ names es) (value : α) : put name value es = es ++ [(name, value)] := by
  induction es with
  | nil => rfl
  | cons e rest ih =>
      obtain ⟨n, v⟩ := e
      obtain ⟨other, missing⟩ := List.ne_and_not_mem_of_not_mem_cons h
      rw [put, if_neg other.symm, ih missing]
      rfl

theorem names_put_of_mem (h : name ∈ names es) (value : α) : names (put name value es) = names es := by
  induction es with
  | nil => cases h
  | cons e rest ih =>
      obtain ⟨n, v⟩ := e
      rw [put]
      split
      · rfl
      · rename_i other
        have there := (List.mem_cons.mp h).resolve_left fun same => other same.symm
        exact congrArg (n :: ·) (ih there)

theorem names_put_of_not_mem (h : name ∉ names es) (value : α) : names (put name value es) = names es ++ [name] := by
  rw [put_of_not_mem h, names, List.map_append]
  rfl

theorem nodup_names_put (h : (names es).Nodup) (name : κ) (value : α) : (names (put name value es)).Nodup := by
  by_cases there : name ∈ names es
  · rwa [names_put_of_mem there]
  · rw [names_put_of_not_mem there]
    exact List.concat_eq_append ▸ h.concat there

theorem names_prefix_put (es : Entries κ α) (name : κ) (value : α) : names es <+: names (put name value es) := by
  by_cases there : name ∈ names es
  · exact ⟨[], by rw [List.append_nil, names_put_of_mem there]⟩
  · rw [names_put_of_not_mem there]
    exact List.prefix_append _ _

theorem names_erase_sublist (name : κ) (es : Entries κ α) : (names (erase name es)).Sublist (names es) := by
  induction es with
  | nil => exact .slnil
  | cons e rest ih =>
      obtain ⟨n, v⟩ := e
      rw [erase]
      split
      · exact List.sublist_cons_self n (names rest)
      · exact ih.cons_cons n

theorem nodup_names_erase (h : (names es).Nodup) (name : κ) : (names (erase name es)).Nodup :=
  (names_erase_sublist name es).nodup h

/-- A name that was removed has no value, as it stood once only. -/
theorem get?_erase_self (h : (names es).Nodup) (name : κ) : get? name (erase name es) = none := by
  induction es with
  | nil => rfl
  | cons e rest ih =>
      obtain ⟨n, v⟩ := e
      obtain ⟨fresh, distinct⟩ := List.nodup_cons.mp h
      rw [erase]
      split
      · rename_i same
        exact get?_eq_none (same ▸ fresh)
      · rename_i different
        rw [get?, if_neg different, ih distinct]

omit [DecidableEq κ] in
theorem not_mem_of_nodup_append (h : (names (es ++ (name, value) :: later)).Nodup) : name ∉ names es := by
  rw [names, List.map_append] at h
  exact fun there => (List.nodup_append.mp h).2.2 name there name List.mem_cons_self rfl

theorem not_mem_names_erase (h : (names es).Nodup) (name : κ) : name ∉ names (erase name es) := by
  intro there
  obtain ⟨value, found⟩ := exists_get?_of_mem there
  rw [get?_erase_self h] at found
  cases found

/-! ## Merging -/

theorem get?_merge (h : (names later).Nodup) (name : κ) :
    get? name (merge es later) = (get? name later).or (get? name es) := by
  induction later generalizing es with
  | nil => rfl
  | cons e rest ih =>
      obtain ⟨n, v⟩ := e
      obtain ⟨fresh, distinct⟩ := List.nodup_cons.mp h
      show get? name (merge (put n v es) rest) = _
      rw [ih distinct, get?]
      by_cases same : n = name
      · subst same
        rw [if_pos rfl, get?_put_self, get?_eq_none fresh]
        rfl
      · rw [if_neg same, get?_put_of_ne v es (Ne.symm same)]

theorem names_merge (h : (names later).Nodup) :
    names (merge es later) = names es ++ (names later).filter (· ∉ names es) := by
  induction later generalizing es with
  | nil => exact (List.append_nil _).symm
  | cons e rest ih =>
      obtain ⟨n, v⟩ := e
      obtain ⟨fresh, distinct⟩ := List.nodup_cons.mp h
      show names (merge (put n v es) rest) = names es ++ (n :: names rest).filter (· ∉ names es)
      rw [ih distinct]
      by_cases there : n ∈ names es
      · rw [names_put_of_mem there, List.filter_cons_of_neg (by simpa using there)]
      · have same : (names rest).filter (· ∉ names es ++ [n]) = (names rest).filter (· ∉ names es) := by
          apply List.filter_congr
          intro m hm
          have other : m ≠ n := fun same => fresh (same ▸ hm)
          simp [other]
        rw [names_put_of_not_mem there, same, List.filter_cons_of_pos (by simpa using there), List.append_assoc]
        rfl

/-- Entries with distinct names are determined by their names and values. -/
theorem ext {es es' : Entries κ α} (h : (names es).Nodup) (same : names es = names es')
    (values : ∀ name ∈ names es, get? name es = get? name es') : es = es' := by
  induction es generalizing es' with
  | nil => exact (List.map_eq_nil_iff.mp same.symm).symm
  | cons e rest ih =>
      obtain ⟨n, v⟩ := e
      obtain ⟨fresh, distinct⟩ := List.nodup_cons.mp h
      obtain ⟨⟨n', v'⟩, rest', rfl, first, more⟩ := List.map_eq_cons_iff.mp same.symm
      obtain rfl : n' = n := first
      have value := values n' List.mem_cons_self
      rw [get?, get?, if_pos rfl, if_pos rfl] at value
      obtain rfl := Option.some.inj value
      congr 1
      apply ih distinct more.symm
      intro m hm
      have other : n' ≠ m := fun same => fresh (same ▸ hm)
      have value := values m (List.mem_cons_of_mem _ hm)
      rwa [get?, get?, if_neg other, if_neg other] at value

/-- Entries over others whose names they start with are those entries. -/
theorem merge_of_prefix (h : (names later).Nodup) (pre : names es <+: names later) : merge es later = later := by
  have inner : names (merge es later) = names later := by
    obtain ⟨more, hm⟩ := pre
    have apart := (List.nodup_append.mp (hm ▸ h)).2.2
    have first : (names es).filter (· ∉ names es) = [] := by simp
    have last : more.filter (· ∉ names es) = more := by
      apply List.filter_eq_self.mpr
      intro n hn
      exact decide_eq_true fun there => apart n there n hn rfl
    rw [names_merge h, ← hm, List.filter_append, first, last, List.nil_append]
  apply ext (inner ▸ h) inner
  intro name hn
  obtain ⟨value, found⟩ := exists_get?_of_mem (inner ▸ hn)
  rw [get?_merge h, found]
  rfl

end Surd.Entries
