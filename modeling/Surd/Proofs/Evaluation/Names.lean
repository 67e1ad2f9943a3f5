import Surd.Proofs.Tree.Names
import Surd.Evaluation

/-!
# Evaluation and its names

A text is worth something only if each of its names has a value, and what it is worth hangs on these values alone
(`ofText_names`). A name without a value is reported before anything is computed, whatever else is wrong; where every
name has one, no rule of evaluation reports a name.
-/

namespace Surd

/-- The computation does not stop at a name without a value. -/
def Resolved {α : Type} (e : Except Stop α) : Prop := ∀ names, e ≠ .error (.problem (.undefinedVariables names))

namespace Resolved

variable {α β : Type} {e : Except Stop α}

theorem ok (a : α) : Resolved (.ok a) := fun _ => nofun

/-- A fault is no name without a value. -/
theorem lift (e : Except Fault α) : Resolved (liftM e) := by
  cases e <;> exact fun _ => nofun

theorem refuse {p : Problem} (h : ∀ names, p ≠ .undefinedVariables names) : Resolved (refuse p : Except Stop α) :=
  fun names same => h names (Stop.problem.inj (Except.error.inj same))

theorem bind {f : α → Except Stop β} (h : Resolved e) (next : ∀ a, Resolved (f a)) : Resolved (e >>= f) := by
  cases e with
  | error => exact fun names same => h names (congrArg Except.error (Except.error.inj same))
  | ok a => exact next a

theorem map {f : α → β} (h : Resolved e) : Resolved (f <$> e) := by
  cases e with
  | error => exact fun names same => h names (congrArg Except.error (Except.error.inj same))
  | ok a => exact .ok (f a)

end Resolved

/-- Only names without a value have the code 3034. -/
theorem Stop.code_eq_iff {s : Stop} : s.code = "3034" ↔ ∃ names, s = .problem (.undefinedVariables names) := by
  constructor
  · intro h
    cases s with
    | fault => simp [code] at h
    | problem p =>
        cases p with
        | undefinedVariables names => exact ⟨names, rfl⟩
        | _ => simp [code, Problem.code] at h
  · rintro ⟨_, rfl⟩
    rfl

namespace Function

theorem sqrt_resolved (a : Number) : Resolved (sqrt a) := by
  rw [sqrt]
  split
  · exact .refuse fun _ => nofun
  · exact .lift _

theorem trigonometric_resolved (lib : Elementary) (name : String) (a : Number) (degrees : Bool) :
    Resolved (trigonometric lib name a degrees) := by
  -- Whatever the angle is in radians, the name decides what is done with it.
  have chosen : ∀ a : Number, Resolved (trigonometric lib name a false) := by
    intro a
    change Resolved (if name = "sin" then _ else _)
    split_ifs
    · exact .lift _
    · exact .lift _
    · exact .lift _
    · exact .refuse fun _ => nofun
  cases degrees with
  | true => exact (Resolved.lift _).map.bind chosen
  | false => exact chosen a

theorem logarithm_resolved (lib : Elementary) (name : String) (a : Number) : Resolved (logarithm lib name a) := by
  rw [logarithm]
  split
  · exact .refuse fun _ => nofun
  · split
    · exact .lift _
    · exact .lift _

theorem apply_resolved (lib : Elementary) (name : String) (a : Number) (degrees : Bool) :
    Resolved (apply lib name a degrees) := by
  rw [apply]
  split_ifs
  · exact (sqrt_resolved a).map
  · exact .ok _
  · exact (trigonometric_resolved lib name a degrees).map
  · exact (logarithm_resolved lib name a).map
  · exact .refuse fun _ => nofun

end Function

namespace Evaluation

variable {lib : Elementary} {values values' : Entries String Number} {options : Options} {t : Tree}

/-! ## Every name has a value -/

theorem checked_resolved (x : Double) : Resolved (checked x) := by
  rw [checked]
  split
  · exact .refuse fun _ => nofun
  · exact .ok x

theorem decimalBinary_resolved (lib : Elementary) (op : BinaryOp) (x y : Double) :
    Resolved (decimalBinary lib op x y) := by
  cases op with
  | add | sub | mul => exact .ok _
  | div =>
      rw [decimalBinary]
      split
      · exact .refuse fun _ => nofun
      · exact .ok _
  | pow =>
      rw [decimalBinary, decimalPower]
      split
      · exact .ok _
      · exact .refuse fun _ => nofun
      · exact .refuse fun _ => nofun
  | other => exact .refuse fun _ => nofun

theorem ofNumeral_resolved (x : Double) : Resolved (ofNumeral x) := by
  apply (checked_resolved x).bind
  intro x
  split
  · exact (Resolved.lift _).bind fun _ => .ok _
  · exact .ok _

theorem ofVariable_resolved {name : String} (h : values.has name = true) : Resolved (ofVariable values name) := by
  rw [ofVariable]
  obtain ⟨a, bound⟩ := Option.isSome_iff_exists.mp h
  rw [bound]
  exact (Resolved.lift _).bind fun _ => .ok _

theorem negated_resolved (w : Worth) : Resolved (negated w) := (Resolved.lift _).bind fun _ => .ok _

theorem combined_resolved (lib : Elementary) (op : BinaryOp) (left right : Worth) :
    Resolved (combined lib op left right) := by
  apply (decimalBinary_resolved lib op left.value right.value).bind
  intro x
  apply (Resolved.lift _).bind
  intro exact
  exact (checked_resolved x).bind fun _ => .ok _

theorem called_resolved (lib : Elementary) (options : Options) (name : String) (argument : Worth) :
    Resolved (called lib options name argument) := by
  have result := (Function.apply_resolved lib name (.real argument.value) options.degrees).bind
    fun r => Resolved.lift r.toDouble
  apply result.bind
  intro x
  apply (Resolved.lift _).bind
  intro exact
  exact (checked_resolved x).bind fun _ => .ok _

/-- Where every name of a tree has a value, its evaluation reports none. -/
theorem ofTree_resolved (h : ∀ name ∈ t.leafNames, values.has name = true) :
    Resolved (ofTree lib values options t) := by
  induction t with
  | number x => exact ofNumeral_resolved x
  | «variable» name => exact ofVariable_resolved (h name (List.mem_singleton_self name))
  | negate t ih => exact (ih h).bind negated_resolved
  | binary op l r ihl ihr =>
      obtain ⟨left, right⟩ := List.forall_mem_append.mp h
      exact (ihl left).bind fun x => (ihr right).bind fun y => combined_resolved lib op x y
  | call f t ih => exact (ih h).bind (called_resolved lib options f)

/-! ## Nothing but the names -/

/-- The worth of a tree hangs on the values of its names only. -/
theorem ofTree_congr (h : ∀ name ∈ t.leafNames, values.get? name = values'.get? name) :
    ofTree lib values options t = ofTree lib values' options t := by
  induction t with
  | number => rfl
  | «variable» name =>
      rw [ofTree, ofVariable, h name (List.mem_singleton_self name)]
      rfl
  | negate t ih => rw [ofTree, ofTree, ih h]
  | binary op l r ihl ihr =>
      obtain ⟨left, right⟩ := List.forall_mem_append.mp h
      rw [ofTree, ofTree, ihl left, ihr right]
  | call f t ih => rw [ofTree, ofTree, ih h]

/-! ## Texts -/

/-- The names of tokens that have no value, each once and in the order in which they first appear. -/
def missing (values : Entries String Number) (ts : List Token) : List String :=
  (Token.names ts).eraseDups.filter fun name => !values.has name

theorem mem_missing {name : String} {ts : List Token} :
    name ∈ missing values ts ↔ name ∈ Token.names ts ∧ values.get? name = none := by
  simp [missing, Entries.has]

theorem missing_congr {ts : List Token} (h : ∀ name ∈ Token.names ts, values.get? name = values'.get? name) :
    missing values ts = missing values' ts := by
  apply List.filter_congr
  intro name hn
  rw [Entries.has, Entries.has, h name (List.mem_eraseDups.mp hn)]

/-- The result of an accepted text, with its names taken from the tokens. -/
theorem ofText_accepted {cs : List Char} {ts : List Token} (h : Parsed.ofText cs = .accepted ts t) :
    ofText lib values options cs =
      match missing values ts with
      | name :: names => .failure "3034" (Problem.undefinedVariables (name :: names)).message
      | [] =>
        match ofTree lib values options t with
        | .ok w => .value w
        | .error s => .failure s.code s.message := by
  rw [ofText, worth, h]
  dsimp only
  rw [Parsed.variableNames_of_accepted h, ← missing]
  cases missing values ts with
  | cons => rfl
  | nil => cases ofTree lib values options t <;> rfl

/-- What an accepted text is worth depends on its variables exactly. If a name among its tokens has no value, the
evaluation fails with the code 3034 and the list of all such names, each once and in the order of the text, whatever
else would go wrong. If every name has a value, it does not fail with this code. And values that agree on the names of
the text give the same result. -/
theorem ofText_names {cs : List Char} {ts : List Token} (h : Parsed.ofText cs = .accepted ts t)
    (lib : Elementary) (values : Entries String Number) (options : Options) :
    ((∃ name ∈ Token.names ts, values.get? name = none) →
      ofText lib values options cs =
        .failure "3034" ("Undefined variable(s): " ++ ", ".intercalate (missing values ts))) ∧
    ((∀ name ∈ Token.names ts, values.get? name ≠ none) →
      ∀ message, ofText lib values options cs ≠ .failure "3034" message) ∧
    ∀ values' : Entries String Number, (∀ name ∈ Token.names ts, values.get? name = values'.get? name) →
      ofText lib values options cs = ofText lib values' options cs := by
  refine ⟨?_, ?_, ?_⟩
  · rintro ⟨name, present, absent⟩
    have listed := mem_missing.mpr ⟨present, absent⟩
    rw [ofText_accepted h]
    cases missed : missing values ts with
    | nil =>
        rw [missed] at listed
        cases listed
    | cons => rfl
  · intro bound message
    have none_missing : missing values ts = [] :=
      List.eq_nil_iff_forall_not_mem.mpr fun name hn => bound name (mem_missing.mp hn).1 (mem_missing.mp hn).2
    obtain ⟨_, _, _, built⟩ := Parsed.of_ofText_accepted h
    have resolved : Resolved (ofTree lib values options t) := by
      apply ofTree_resolved
      rw [Tree.leafNames_of_ofTokens built]
      exact fun name hn => Option.isSome_iff_ne_none.mpr (bound name hn)
    rw [ofText_accepted h, none_missing]
    dsimp only
    cases worth : ofTree lib values options t with
    | ok w => exact nofun
    | error s =>
        intro failure
        obtain ⟨names, rfl⟩ := Stop.code_eq_iff.mp (Result.failure.inj failure).1
        exact resolved names worth
  · intro values' agree
    obtain ⟨_, _, _, built⟩ := Parsed.of_ofText_accepted h
    rw [ofText_accepted h, ofText_accepted h, missing_congr agree,
      ofTree_congr (by rwa [Tree.leafNames_of_ofTokens built])]

/-- The tokens of `b/0 + a*b`. -/
def unboundQuotient : List Token :=
  [⟨.variable "b", 0⟩, ⟨.binary .div, 1⟩, ⟨.number "0", 2⟩, ⟨.binary .add, 4⟩, ⟨.variable "a", 6⟩, ⟨.binary .mul, 7⟩,
    ⟨.variable "b", 8⟩]

/-- Of `b/0 + a*b` with a value for `a` only, the name `b` is reported, once, and the division by zero is not. -/
theorem ofText_names_unboundQuotient :
    Parsed.ofText "b/0 + a*b".toList = .accepted unboundQuotient
      (.binary .add (.binary .div (.variable "b") (.number (.zero false)))
        (.binary .mul (.variable "a") (.variable "b"))) ∧
    (∃ name ∈ Token.names unboundQuotient, Entries.get? name [("a", (1 : Number))] = none) ∧
    ofText .machine [("a", 1)] ⟨false, .ok 1⟩ "b/0 + a*b".toList =
      .failure "3034" "Undefined variable(s): b" ∧
    ofText .machine [("a", 1)] ⟨false, .ok 1⟩ "b/0 + a*b".toList =
      ofText .machine [("c", 2), ("a", 1)] ⟨false, .ok 1⟩ "b/0 + a*b".toList := by
  have accepted : Parsed.ofText "b/0 + a*b".toList = .accepted unboundQuotient
      (.binary .add (.binary .div (.variable "b") (.number (.zero false)))
        (.binary .mul (.variable "a") (.variable "b"))) := by cbv
  have unbound : ∃ name ∈ Token.names unboundQuotient, Entries.get? name [("a", (1 : Number))] = none := by decide
  obtain ⟨reported, _, agree⟩ := ofText_names accepted .machine [("a", 1)] ⟨false, .ok 1⟩
  have missed : missing [("a", (1 : Number))] unboundQuotient = ["b"] := by decide
  refine ⟨accepted, unbound, ?_, agree _ (by decide)⟩
  rw [reported unbound, missed]
  exact congrArg (Result.failure "3034") (by decide)

end Evaluation

end Surd
