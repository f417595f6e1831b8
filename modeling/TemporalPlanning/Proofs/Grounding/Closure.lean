import Mathlib.Data.List.Forall2
import TemporalPlanning.Grounding.Saturation
/-!
The values that are reachable, level by level.

This is grounding without its machinery: no windows of values, no partial bindings and no order of
arrival. An instance of an operator consists of the operator and an object for each parameter. Level
`0` holds the objects of the initial state, and a level adds to the one before it the effects of all
instances that it enables. Conditions that require falsity do not have to be met, but an operator
with no other conditions needs one of them to be met explicitly.
-/
set_option autoImplicit false

namespace TemporalPlanning.Grounding

open Lifted

/-! ## Instances of operators -/

/-- The object that a term denotes if the parameters stand for the given objects. -/
def denote (arguments : List ObjectId) : Term → ObjectId
  | .param i => arguments[i]?.getD .falsity
  | .object object => object

/-- The value that a condition or effect asks for. -/
def instanceOf (arguments : List ObjectId) (fluent : Fluent) : ReachedValue :=
  ⟨fluent.literal.function, fluent.literal.arguments.map (denote arguments),
    denote arguments fluent.value⟩

/-- The value that a numeric effect gives to a function, if it assigns a single term. -/
def assignedValue (arguments : List ObjectId) (effect : NumericEffect) : Option ReachedValue :=
  match effect.assignment, effect.expression with
  | .assign, .atom (.term t) =>
    some ⟨effect.fluent.function, effect.fluent.arguments.map (denote arguments),
      denote arguments t⟩
  | _, _ => none

/-- The values that the effects of one time point give to functions. -/
def changesOf (arguments : List ObjectId) (h : Happening) : List ReachedValue :=
  h.effects.map (instanceOf arguments) ++ h.numericEffects.filterMap (assignedValue arguments)

/-- Two values that a function cannot have at the same time. -/
def Conflicting (v w : ReachedValue) : Prop :=
  v.function = w.function ∧ v.arguments = w.arguments ∧ v.value ≠ w.value

/-- Some function is given two values. -/
def Contradictory (values : List ReachedValue) : Prop := ∃ v ∈ values, ∃ w ∈ values, Conflicting v w

namespace Instance

variable (setting : Setting) (op : Operator) (arguments : List ObjectId)

/-- The conditions at start and over all. -/
def preconditions : List Fluent := op.atStart.conditions ++ op.invariants

/-- The values that the effects of an instance give to functions. -/
def changes : List ReachedValue := changesOf arguments op.atStart ++ changesOf arguments op.atEnd

/-- The parameters stand for objects of their types. -/
def IsAdmissible : Prop :=
  List.Forall₂ (fun p o => setting.admits p.types o = true) op.parameters arguments

/-- The terms that must be equal or different are. -/
def RespectsIdentities : Prop :=
  ∀ i ∈ op.identities,
    denote arguments i.left = denote arguments i.right ↔ i.equal = true

/-- The effects at one time point give some function two values. -/
def IsDiscarded : Prop :=
  Contradictory (op.atStart.effects.map (instanceOf arguments)) ∨
    Contradictory (op.atEnd.effects.map (instanceOf arguments))

/-- An instance that becomes an action once it is looked at. -/
def IsUseful : Prop := RespectsIdentities op arguments ∧ ¬IsDiscarded op arguments

/-- The conditions to be met are among some values: all that do not require falsity, or, if all do,
at least one. -/
def IsMatched (R : ReachedValue → Prop) : Prop :=
  preconditions op = [] ∨
    (∀ c ∈ preconditions op, isNegated c = false → R (instanceOf arguments c)) ∧
      ((∀ c ∈ preconditions op, isNegated c = true) →
        ∃ c ∈ preconditions op, R (instanceOf arguments c))

/-- Some values enable an instance. -/
structure IsEnabled (R : ReachedValue → Prop) : Prop where
  admissible : IsAdmissible setting op arguments
  identities : RespectsIdentities op arguments
  matched : IsMatched op arguments R

variable {op arguments}

theorem IsMatched.mono {R S : ReachedValue → Prop} (h : IsMatched op arguments R)
    (hRS : ∀ v, R v → S v) : IsMatched op arguments S := by
  rcases h with h | ⟨hall, hsome⟩
  · exact Or.inl h
  · refine Or.inr ⟨fun c hc hneg => hRS _ (hall c hc hneg), fun hneg => ?_⟩
    obtain ⟨c, hc, hval⟩ := hsome hneg
    exact ⟨c, hc, hRS _ hval⟩

end Instance

/-! ## Levels -/

variable (p : Problem)

/-- A fact gives a function an object. -/
def IsInitialValue (v : ReachedValue) : Prop :=
  ∃ fact ∈ p.task.init, fact.value = .object v.value ∧ fact.function = v.function ∧
    fact.arguments = v.arguments

/-- Some instance that is enabled by the values of a level and not discarded has an effect. -/
def IsEffect (R : ReachedValue → Prop) (v : ReachedValue) : Prop :=
  ∃ op ∈ p.operators, ∃ arguments, Instance.IsEnabled (Setting.ofTask p.task) op arguments R ∧
    ¬Instance.IsDiscarded op arguments ∧ v ∈ Instance.changes op arguments

/-- The values of a level. -/
def closure : Nat → ReachedValue → Prop
  | 0, v => IsInitialValue p v
  | k + 1, v => closure k v ∨ IsEffect p (closure k) v

/-- A value belongs to a level and to none before it. -/
def FirstReached (k : Nat) (v : ReachedValue) : Prop := closure p k v ∧ ∀ j < k, ¬closure p j v

theorem closure_mono {j k : Nat} (h : j ≤ k) {v : ReachedValue} (hv : closure p j v) :
    closure p k v := by
  induction h with
  | refl => exact hv
  | step _ ih => exact Or.inl ih

/-- Every value of a level is first reached at that level or before. -/
theorem exists_firstReached {k : Nat} {v : ReachedValue} (hv : closure p k v) :
    ∃ j ≤ k, FirstReached p j v := by
  induction k with
  | zero => exact ⟨0, Nat.le_refl 0, hv, fun j hj => absurd hj (Nat.not_lt_zero j)⟩
  | succ k ih =>
    by_cases hprev : closure p k v
    · obtain ⟨j, hj, hfirst⟩ := ih hprev
      exact ⟨j, Nat.le_succ_of_le hj, hfirst⟩
    · exact ⟨k + 1, Nat.le_refl _, hv, fun j hj hjv =>
        hprev (closure_mono p (Nat.le_of_lt_succ hj) hjv)⟩

theorem closure_iff_firstReached {k : Nat} {v : ReachedValue} :
    closure p k v ↔ ∃ j ≤ k, FirstReached p j v :=
  ⟨exists_firstReached p, fun ⟨_, hj, hfirst⟩ => closure_mono p hj hfirst.1⟩

/-- A value is first reached at one level only. -/
theorem FirstReached.unique {j k : Nat} {v : ReachedValue} (hj : FirstReached p j v)
    (hk : FirstReached p k v) : j = k := by
  rcases Nat.lt_trichotomy j k with h | h | h
  · exact absurd hj.1 (hk.2 j h)
  · exact h
  · exact absurd hk.1 (hj.2 k h)

/-- A level that enables no new effects is the last one. -/
theorem closure_of_closed {k : Nat} (hclosed : ∀ v, IsEffect p (closure p k) v → closure p k v)
    {j : Nat} {v : ReachedValue} (hv : closure p j v) : closure p k v := by
  rcases Nat.le_total j k with h | h
  · exact closure_mono p h hv
  · -- by induction on the levels after `k`, which add nothing to it
    induction h generalizing v with
    | refl => exact hv
    | step _ ih =>
      rcases hv with hv | ⟨op, hop, arguments, henabled, hkept, hmem⟩
      · exact ih hv
      · refine hclosed v ⟨op, hop, arguments, ?_, hkept, hmem⟩
        exact ⟨henabled.admissible, henabled.identities, henabled.matched.mono fun w hw => ih hw⟩

/-! ## Conventions -/

/-- Different instances of ordinary operators have different names. -/
def HasDistinctNames : Prop :=
  ∀ (i j : Nat) (op op' : Operator) (as bs : List ObjectId), p.operators[i]? = some op →
    p.operators[j]? = some op' → op.isGoal = false → op'.isGoal = false →
    Instance.IsAdmissible (Setting.ofTask p.task) op as →
    Instance.IsAdmissible (Setting.ofTask p.task) op' bs →
    p.task.applied op.name as = p.task.applied op'.name bs → i = j ∧ as = bs

/-- The functions applied to terms that an expression reads. -/
def readsOf (e : Expression Quantity) : List Literal :=
  e.atoms.filterMap fun
    | .fluent literal => some literal
    | .number _ | .term _ | .duration | .elapsed => none

/-- The expressions in the numeric conditions, numeric effects and bounds of an operator. -/
def expressionsOf (op : Operator) : List (Expression Quantity) :=
  (op.atStart.numericConditions ++ op.numericInvariants ++ op.atEnd.numericConditions).flatMap
      (·.operands) ++
    (op.atStart.numericEffects ++ op.atEnd.numericEffects).map (·.expression) ++
    op.durations.map (·.expression)

/-- The functions applied to terms that the numeric parts of an operator read or write. -/
def numericLiterals (op : Operator) : List Literal :=
  (expressionsOf op).flatMap readsOf ++
    (op.atStart.numericEffects ++ op.atEnd.numericEffects).map (·.fluent)

/-- Whatever the numeric parts of instances read or write has a fact. -/
def HasNumericFacts : Prop :=
  ∀ op ∈ p.operators, ∀ arguments, Instance.IsAdmissible (Setting.ofTask p.task) op arguments →
    ∀ literal ∈ numericLiterals op, ∃ fact ∈ p.task.init, fact.function = literal.function ∧
      fact.arguments = literal.arguments.map (denote arguments)

end TemporalPlanning.Grounding
