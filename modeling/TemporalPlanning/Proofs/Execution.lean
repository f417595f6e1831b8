import Mathlib.Logic.Relation
import TemporalPlanning.Grounded.Basic
import TemporalPlanning.Proofs.Values
/-!
Running a grounded task, one action after the other.

A valuation gives variables objects as their values. A variable may be without a value; if it is a
proposition, it then counts as false. An action is executed by checking its conditions at start and
over all, applying its effects at start, checking its conditions over all and at end in the
valuation between, and applying its effects at end. The effects of one time point are applied in
their order, so that of two effects on one variable the last one counts.

`Task.Step` relates a valuation to the one in which an action leaves it, and `Task.Reaches` is its
reflexive transitive closure. Numeric conditions and effects play no part here.
-/
set_option autoImplicit false

namespace TemporalPlanning.Grounded

/-- The objects that variables have as their values. -/
abbrev Valuation := Values VarId ObjectId

namespace Valuation

variable (x : Valuation)

/-- Effects are applied in their order. -/
def apply (effects : List Condition) : Valuation := x.assign (effects.map fun e => (e.var, e.value))

/-- A proposition is true. -/
def IsTrue (v : VarId) : Prop := x v = some .truth

instance (v : VarId) : Decidable (x.IsTrue v) := inferInstanceAs (Decidable (_ = _))

/-- A variable without an effect keeps its value. -/
theorem apply_of_forall_ne {es : List Condition} {v : VarId} (h : ∀ e ∈ es, e.var ≠ v) :
    x.apply es v = x v :=
  x.assign_of_forall_ne fun p hp => by
    obtain ⟨e, he, rfl⟩ := List.mem_map.mp hp
    exact h e he

/-- A value after effects comes from one of them, or has been there before and is untouched. -/
theorem apply_eq_some {es : List Condition} {v : VarId} {o : ObjectId}
    (h : x.apply es v = some o) :
    (∃ e ∈ es, e.var = v ∧ e.value = o) ∨ ((∀ e ∈ es, e.var ≠ v) ∧ x v = some o) := by
  rcases x.assign_eq_some h with hmem | ⟨hne, hval⟩
  · obtain ⟨e, he, hpair⟩ := List.mem_map.mp hmem
    cases hpair
    exact Or.inl ⟨e, he, rfl, rfl⟩
  · exact Or.inr ⟨fun e he => hne (e.var, e.value) (List.mem_map_of_mem he), hval⟩

end Valuation

/-! ## Conditions, actions and runs -/

namespace Task

variable (t : Task)

/-- Variables carry their positions in the table. -/
def IsNumbered : Prop := ∀ (i : Nat) (v : Variable), t.vars[i]? = some v → v.index = ⟨i⟩

variable {t} in
/-- The variables of a numbered table are at their positions. -/
theorem IsNumbered.mem_vars_iff (ht : t.IsNumbered) {v : Variable} :
    v ∈ t.vars.toList ↔ t.vars[v.index.index]? = some v := by
  constructor
  · intro hv
    obtain ⟨i, hi⟩ := List.mem_iff_getElem?.mp hv
    rw [Array.getElem?_toList] at hi
    rwa [ht i v hi]
  · intro hv
    exact List.mem_of_getElem? (Array.getElem?_toList.symm ▸ hv)

/-- Variables know whether their functions are numeric. -/
def IsTyped : Prop :=
  ∀ (i : Nat) (v : Variable), t.vars[i]? = some v → v.isNumeric = t.task.isNumeric v.function

variable {t} in
/-- Propositions are not numeric. -/
theorem IsTyped.isNumeric_eq_false (ht : t.IsTyped) {i : Nat} {v : Variable}
    (hv : t.vars[i]? = some v) (hprop : t.isProposition ⟨i⟩ = true) : v.isNumeric = false := by
  have hpredicate : t.task.isPredicate v.function = true := by
    simpa only [isProposition, hv] using hprop
  rw [ht i v hv, Lifted.Task.isNumeric, beq_iff_eq.mp hpredicate]
  rfl

/-- Variables, actions and goals carry their positions, and nothing is there twice: no function
applied to the same objects, no name of an action and no name of a preference. -/
structure IsOrderly : Prop where
  numbered : t.IsNumbered
  typed : t.IsTyped
  distinct : ∀ (i j : Nat) (v w : Variable), t.vars[i]? = some v → t.vars[j]? = some w →
    v.function = w.function → v.arguments = w.arguments → i = j
  actions : ∀ (i : Nat) (a : Action), t.actions[i]? = some a → a.index = i
  goals : ∀ (i : Nat) (a : Action), t.goals[i]? = some a → a.index = i
  names : (t.actions.map (·.name)).Nodup
  preferenceNames : t.preferenceNames.Nodup

/-- A literal condition holds. A proposition without a value is false. -/
def Holds (x : Valuation) (c : Condition) : Prop :=
  x c.var = some c.value ∨ (x c.var = none ∧ t.isProposition c.var = true ∧ c.value = .falsity)

/-- An action can be executed in a valuation and leads to another one. -/
structure Executes (x : Valuation) (a : Action) (y : Valuation) : Prop where
  /-- Conditions at start and over all hold before the effects at start. -/
  before : ∀ c ∈ a.startConditions ++ a.invariants, t.Holds x c
  /-- Conditions over all and at end hold after them. -/
  between : ∀ c ∈ a.invariants ++ a.endConditions, t.Holds (x.apply a.startEffects) c
  after : y = (x.apply a.startEffects).apply a.endEffects

/-- Some ordinary action leads from one valuation to another. -/
def Step (x y : Valuation) : Prop := ∃ a ∈ t.actions, t.Executes x a y

/-- Ordinary actions, executed one after the other, lead from one valuation to another. -/
def Reaches : Valuation → Valuation → Prop := Relation.ReflTransGen t.Step

/-- The valuation before the first action: a variable has one of the objects that the initial state
gives it for time zero, and none if there is no such object. -/
structure IsInitial (x : Valuation) : Prop where
  sound : ∀ v o, x v = some o →
    ∃ entry, t.vars[v.index]? = some entry ∧ ∃ time, (time, Value.object o) ∈ entry.initialValues ∧
      (time == 0.0) = true
  complete : ∀ v entry, t.vars[v.index]? = some entry →
    (∃ time o, (time, Value.object o) ∈ entry.initialValues ∧ (time == 0.0) = true) →
      (x v).isSome = true

instance (x : Valuation) (c : Condition) : Decidable (t.Holds x c) :=
  inferInstanceAs (Decidable (_ ∨ _))

/-- The valuation before the first action in which the first fact about a variable counts. -/
def initial : Valuation := fun v =>
  t.vars[v.index]?.bind fun entry => entry.initialValues.findSome? fun initialValue =>
    if initialValue.1 == 0.0 then initialValue.2.object? else none

theorem isInitial_initial : t.IsInitial t.initial := by
  -- what a fact about time zero contributes
  have hobject : ∀ {time : Float} {value : Value} {o : ObjectId},
      (if time == 0.0 then value.object? else none) = some o →
        (time == 0.0) = true ∧ value = .object o := by
    intro time value o h
    split at h
    next htime =>
      cases value with
      | number x => cases h
      | object o' =>
        cases h
        exact ⟨htime, rfl⟩
    · cases h
  refine ⟨fun v o hv => ?_, fun v entry hentry ⟨time, o, hmem, htime⟩ => ?_⟩
  · obtain ⟨entry, hentry, hv⟩ := Option.bind_eq_some_iff.mp hv
    obtain ⟨⟨time, value⟩, hmem, hv⟩ := List.exists_of_findSome?_eq_some hv
    obtain ⟨htime, rfl⟩ := hobject hv
    exact ⟨entry, hentry, time, hmem, htime⟩
  · rw [initial, hentry, Option.bind_some, List.findSome?_isSome_iff]
    exact ⟨_, hmem, by rw [if_pos htime]; rfl⟩

/-- A condition that requires a proposition to be true finds it true. -/
theorem Holds.isTrue {x : Valuation} {c : Condition} (h : t.Holds x c) (hc : c.value = .truth) :
    x.IsTrue c.var := by
  rcases h with h | ⟨-, -, hfalse⟩
  · rw [Valuation.IsTrue, h, hc]
  · rw [hc] at hfalse
    cases hfalse

end Task

end TemporalPlanning.Grounded
