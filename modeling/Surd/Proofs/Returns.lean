import Mathlib.Algebra.BigOperators.Group.List.Basic
import Surd.Problem

/-!
# Computations that succeed

`Returns e P` is total correctness of a computation that could fail: it does not, and its result satisfies `P`.
The rules follow the shape of a computation; those for walks over a list sum up what each element contributes.
`ReturnsUnless x e P` leaves the computation one way to fail, the error `x`, and `Answers e P` leaves it the problems
that a calculator reports.
-/

namespace Surd

section

variable {ε α β : Type} {e : Except ε α}

theorem ok_bind (a : α) (f : α → Except ε β) : (Except.ok a >>= f) = f a := rfl

/-- A sequence that succeeded did so at both of its steps. -/
theorem exists_of_bind_eq_ok {f : α → Except ε β} {b : β} (h : e >>= f = .ok b) :
    ∃ a, e = .ok a ∧ f a = .ok b := by
  cases e with
  | error => cases h
  | ok a => exact ⟨a, rfl, h⟩

theorem exists_of_map_eq_ok {f : α → β} {b : β} (h : f <$> e = .ok b) :
    ∃ a, e = .ok a ∧ f a = b := by
  cases e with
  | error => cases h
  | ok a => exact ⟨a, rfl, Except.ok.inj h⟩

theorem mapError_eq_ok {ε' : Type} {f : ε → ε'} {a : α} (h : e.mapError f = .ok a) : e = .ok a := by
  cases e with
  | error => cases h
  | ok b => rw [Except.ok.inj h]

/-- A walk over a list whose steps all succeed, seen through the values that they compute. -/
theorem foldlM_map_ok {γ δ : Type} {e : β → γ} {g : α → δ} {f : γ → δ → Except ε γ} {f' : β → α → β}
    (step : ∀ b a, f (e b) (g a) = .ok (e (f' b a))) (xs : List α) (b : β) :
    (xs.map g).foldlM f (e b) = .ok (e (xs.foldl f' b)) := by
  induction xs generalizing b with
  | nil => rfl
  | cons x xs ih => rw [List.map_cons, List.foldlM_cons, step, ok_bind, ih, List.foldl_cons]

/-- What follows matters for a result that is there only. -/
theorem bind_congr_of_ok {f g : α → Except ε β} (same : ∀ a, e = .ok a → f a = g a) : e >>= f = e >>= g := by
  cases e with
  | error => rfl
  | ok a => exact same a rfl

theorem mapM_congr {f g : α → Except ε β} {xs : List α} (same : ∀ x ∈ xs, f x = g x) : xs.mapM f = xs.mapM g := by
  induction xs with
  | nil => rfl
  | cons x xs ih =>
      rw [List.mapM_cons, List.mapM_cons, same x List.mem_cons_self, ih fun y hy => same y (List.mem_cons_of_mem x hy)]

/-- What can stop but meets only faults gives the same results. -/
theorem lift_eq_ok {e : Except Fault α} {a : α} (h : (liftM e : Except Stop α) = .ok a) : e = .ok a := by
  cases e with
  | error => cases h
  | ok b => rw [Except.ok.inj h]

end

/-- The computation succeeds with a result that satisfies `P`. -/
def Returns {ε α : Type} (e : Except ε α) (P : α → Prop) : Prop := ∃ a, e = .ok a ∧ P a

namespace Returns

variable {ε α β M : Type} {e : Except ε α} {P : α → Prop} {Q : β → Prop}

theorem ok {a : α} (h : P a) : Returns (.ok a : Except ε α) P := ⟨a, rfl, h⟩

theorem ok_iff {a : α} : Returns (.ok a : Except ε α) P ↔ P a := by
  constructor
  · rintro ⟨_, ⟨⟩, h⟩
    exact h
  · exact ok

/-- What is known of a result that is there. -/
theorem of_ok {a : α} (h : Returns e P) (ha : e = .ok a) : P a := by
  subst ha
  exact ok_iff.mp h

theorem not_error {x : ε} : ¬Returns (.error x) P := by
  rintro ⟨_, ⟨⟩, _⟩

theorem mono {P' : α → Prop} (h : Returns e P) (post : ∀ a, P a → P' a) : Returns e P' := by
  obtain ⟨a, ha, hp⟩ := h
  exact ⟨a, ha, post a hp⟩

instance [DecidablePred P] : Decidable (Returns e P) :=
  match e with
  | .error _ => isFalse not_error
  | .ok a => decidable_of_iff (P a) ok_iff.symm

/-- What follows may rely on the result of what comes first. -/
theorem bind {f : α → Except ε β} (h : Returns e P) (next : ∀ a, P a → Returns (f a) Q) :
    Returns (e >>= f) Q := by
  obtain ⟨a, rfl, hp⟩ := h
  exact next a hp

/-- A computation that succeeds has succeeded at each of its steps. -/
theorem of_bind {f : α → Except ε β} (h : Returns (e >>= f) Q) :
    Returns e fun a => Returns (f a) Q := by
  cases e with
  | error => exact absurd h not_error
  | ok a => exact ok h

theorem map {f : α → β} (h : Returns e fun a => Q (f a)) : Returns (f <$> e) Q := by
  obtain ⟨a, rfl, hp⟩ := h
  exact ok hp

/-- The result is one only, so it satisfies all that is known of it. -/
theorem and {P' : α → Prop} (h : Returns e P) (h' : Returns e P') : Returns e fun a => P a ∧ P' a := by
  obtain ⟨a, rfl, hp⟩ := h
  obtain ⟨_, ⟨⟩, hp'⟩ := h'
  exact ok ⟨hp, hp'⟩

/-- A walk over a list to which each element contributes a summand. -/
theorem foldlM [AddMonoid M] (Holds : β → M → Prop) {f : β → α → Except ε β} {worth : α → M}
    {xs : List α} (step : ∀ x ∈ xs, ∀ b m, Holds b m → Returns (f b x) (Holds · (m + worth x)))
    {b : β} {m : M} (start : Holds b m) :
    Returns (xs.foldlM f b) (Holds · (m + (xs.map worth).sum)) := by
  induction xs generalizing b m with
  | nil => exact ok (by rwa [List.map_nil, List.sum_nil, add_zero])
  | cons x xs ih =>
      rw [List.foldlM_cons]
      apply (step x List.mem_cons_self b m start).bind
      intro b' h
      apply (ih (fun y hy => step y (List.mem_cons_of_mem x hy)) h).mono
      intro b'' h'
      rwa [List.map_cons, List.sum_cons, ← add_assoc]

/-- A walk over a list that keeps an invariant. -/
theorem foldlM_keeps {Holds : β → Prop} {f : β → α → Except ε β} {xs : List α}
    (step : ∀ x ∈ xs, ∀ b, Holds b → Returns (f b x) Holds) {b : β} (start : Holds b) :
    Returns (xs.foldlM f b) Holds := by
  induction xs generalizing b with
  | nil => exact ok start
  | cons x xs ih =>
      rw [List.foldlM_cons]
      apply (step x List.mem_cons_self b start).bind
      intro b' h
      exact ih (fun y hy => step y (List.mem_cons_of_mem x hy)) h

/-- An operation on each element of a list whose results have keys that `key'` tells in advance. -/
theorem mapM_keys {f : α → Except ε β} {key : β → M} {key' : α → M} {xs : List α}
    (each : ∀ x ∈ xs, Returns (f x) fun y => Q y ∧ key y = key' x) :
    Returns (xs.mapM f) fun ys => (∀ y ∈ ys, Q y) ∧ ys.map key = xs.map key' := by
  induction xs with
  | nil => exact ok ⟨List.forall_mem_nil _, rfl⟩
  | cons x xs ih =>
      rw [List.mapM_cons]
      apply (each x List.mem_cons_self).bind
      rintro y ⟨hy, first⟩
      apply (ih fun z hz => each z (List.mem_cons_of_mem x hz)).bind
      rintro ys ⟨hys, rest⟩
      refine ok ⟨List.forall_mem_cons.mpr ⟨hy, hys⟩, ?_⟩
      rw [List.map_cons, List.map_cons, first, rest]

/-- An operation on each element of a list whose results are worth what `worth` says in advance. -/
theorem mapM [AddMonoid M] {f : α → Except ε β} {worth : α → M} {measure : β → M} {xs : List α}
    (each : ∀ x ∈ xs, Returns (f x) fun y => Q y ∧ measure y = worth x) :
    Returns (xs.mapM f) fun ys =>
      (∀ y ∈ ys, Q y) ∧ (ys.map measure).sum = (xs.map worth).sum := by
  apply (mapM_keys each).mono
  rintro ys ⟨hys, keys⟩
  exact ⟨hys, congrArg List.sum keys⟩

end Returns

/-- The computation succeeds with a result that satisfies `P`, or it ends with this one error. -/
def ReturnsUnless {ε α : Type} (x : ε) (e : Except ε α) (P : α → Prop) : Prop :=
  Returns e P ∨ e = .error x

namespace ReturnsUnless

variable {ε α β : Type} {x : ε} {e : Except ε α} {P : α → Prop} {Q : β → Prop}

theorem ok {a : α} (h : P a) : ReturnsUnless x (.ok a) P := .inl (.ok h)

theorem mono {P' : α → Prop} (h : ReturnsUnless x e P) (post : ∀ a, P a → P' a) :
    ReturnsUnless x e P' :=
  h.imp_left fun returns => returns.mono post

/-- What is known of a result that is there. -/
theorem of_ok {a : α} (h : ReturnsUnless x e P) (ha : e = .ok a) : P a := by
  subst ha
  obtain returns | ⟨⟨⟩⟩ := h
  exact returns.of_ok rfl

/-- A computation that is known to succeed has what is known of its result. -/
theorem and {P' : α → Prop} (h : ReturnsUnless x e P) (h' : Returns e P') : Returns e fun a => P a ∧ P' a := by
  obtain ⟨a, rfl, hp⟩ := h'
  exact .ok ⟨h.of_ok rfl, hp⟩

theorem bind {f : α → Except ε β} (h : ReturnsUnless x e P)
    (next : ∀ a, P a → ReturnsUnless x (f a) Q) : ReturnsUnless x (e >>= f) Q := by
  obtain ⟨a, rfl, hp⟩ | rfl := h
  · exact next a hp
  · exact .inr rfl

/-- A walk over a list that keeps an invariant. -/
theorem foldlM {Holds : β → Prop} {f : β → α → Except ε β} {xs : List α}
    (step : ∀ a ∈ xs, ∀ b, Holds b → ReturnsUnless x (f b a) Holds) {b : β} (start : Holds b) :
    ReturnsUnless x (xs.foldlM f b) Holds := by
  induction xs generalizing b with
  | nil => exact ok start
  | cons a xs ih =>
      rw [List.foldlM_cons]
      apply (step a List.mem_cons_self b start).bind
      intro b' h
      exact ih (fun a' ha' => step a' (List.mem_cons_of_mem a ha')) h

theorem mapM {f : α → Except ε β} {xs : List α} (each : ∀ a ∈ xs, ReturnsUnless x (f a) Q) :
    ReturnsUnless x (xs.mapM f) fun ys => ∀ y ∈ ys, Q y := by
  induction xs with
  | nil => exact ok (List.forall_mem_nil _)
  | cons a xs ih =>
      rw [List.mapM_cons]
      apply (each a List.mem_cons_self).bind
      intro y hy
      apply (ih fun a' ha' => each a' (List.mem_cons_of_mem a ha')).bind
      intro ys hys
      exact ok (List.forall_mem_cons.mpr ⟨hy, hys⟩)

end ReturnsUnless

/-- The computation meets no fault: it succeeds with a result that satisfies `P`, or it stops with a problem. -/
def Answers {α : Type} (e : Except Stop α) (P : α → Prop) : Prop := Returns e P ∨ ∃ p, e = .error (.problem p)

namespace Answers

variable {α β : Type} {e : Except Stop α} {P : α → Prop} {Q : β → Prop}

theorem ok {a : α} (h : P a) : Answers (.ok a) P := .inl (.ok h)

/-- What is known of a result that is there. -/
theorem of_ok {a : α} (h : Answers e P) (ha : e = .ok a) : P a := by
  subst ha
  obtain returns | ⟨p, ⟨⟩⟩ := h
  exact returns.of_ok rfl

theorem refuse (p : Problem) : Answers (refuse p) P := .inr ⟨p, rfl⟩

theorem mono {P' : α → Prop} (h : Answers e P) (post : ∀ a, P a → P' a) : Answers e P' :=
  h.imp_left fun returns => returns.mono post

theorem bind {f : α → Except Stop β} (h : Answers e P) (next : ∀ a, P a → Answers (f a) Q) :
    Answers (e >>= f) Q := by
  obtain ⟨a, rfl, hp⟩ | ⟨p, rfl⟩ := h
  · exact next a hp
  · exact .refuse p

/-- What meets no fault can be lifted. -/
theorem lift {e : Except Fault α} (h : Returns e P) : Answers (liftM e) P := by
  obtain ⟨a, rfl, hp⟩ := h
  exact .ok hp

/-- A problem is one that a computation can stop with. -/
theorem mapError {e : Except Problem α} (h : ∀ a, e = .ok a → P a) : Answers (e.mapError Stop.problem) P := by
  cases e with
  | error p => exact .refuse p
  | ok a => exact .ok (h a rfl)

end Answers

end Surd
