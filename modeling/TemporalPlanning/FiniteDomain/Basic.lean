import TemporalPlanning.FiniteDomain.Expression
import TemporalPlanning.FiniteDomain.Variable
import TemporalPlanning.Registry
/-!
Finite-domain planning tasks.

Variables take values of one table; the first three values are truth, falsity and the value of
variables none of whose propositions holds. Conditions and effects of actions are facts, pairs of
a variable and a value. Goals of the task are actions as well, without effects that matter.
Besides the task itself the structure keeps what is derived from it: the initial state, the actions
by their facts, mutex facts and costs.
-/
set_option autoImplicit false

namespace TemporalPlanning.FiniteDomain

/-! ## Conditions, effects and goals -/

/-- A variable has a value, as a condition or an effect. -/
structure Condition where
  var : Nat
  value : ValueId
  /-- Whether an effect of the same action gives the variable another value. -/
  isModified : Bool
deriving DecidableEq

/-- The condition without regard to effects. -/
def Condition.plain (var : Nat) (value : ValueId) : Condition := ⟨var, value, false⟩

/-- The packed fact of a condition. -/
def Condition.fact (c : Condition) : Except Error FactCode := FactCode.pack c.var c.value

/-- A bound on the duration of an action. -/
structure DurationBound where
  time : TimePoint
  comparator : Comparator
  expression : Expression Quantity

/-- A numeric condition. -/
structure NumericCondition where
  comparator : Comparator
  terms : List (Expression Quantity)

/-- A numeric effect on the numeric variable at a position. -/
structure NumericEffect where
  assignment : Assignment
  var : Nat
  expression : Expression Quantity

/-- A goal without quantifiers. -/
inductive Goal where
  | fact (var : Nat) (value : ValueId)
  /-- A goal that has been decided. -/
  | constant (holds : Bool)
  | and (goals : List Goal)
  | or (goals : List Goal)
  | not (goal : Goal)
  | compare (comparator : Comparator) (terms : List (Expression Quantity))
  | timed (time : TimePoint) (goal : Goal)
deriving Inhabited

/-- A soft goal of an action, with the position of its name. -/
structure Preference where
  nameIndex : Nat
  goal : Goal

/-- A trajectory constraint. -/
inductive Constraint where
  | and (constraints : List Constraint)
  | preference (nameIndex : Nat) (constraint : Constraint)
  | goalPreference (nameIndex : Nat) (goal : Goal)
  | temporal (modality : Modality) (times : List Float) (goals : List Goal)

/-- What a plan is measured by. -/
structure Metric where
  objective : Objective
  expression : Expression Measure

/-! ## Actions -/

/-- What is known before planning about the duration of an action and about the change of the
metric that it causes. -/
structure Cost (α : Type) where
  /-- Whether no bound on the duration depends on the state. -/
  hasFixedDuration : Bool
  /-- The values of the bounds, if the duration is fixed. -/
  durations : List α
  /-- Whether the change of the metric does not depend on the state. -/
  isFixed : Bool
  /-- The change of the metric, if it is fixed. -/
  value : α
deriving DecidableEq

/-- An action, or a goal of the task. -/
structure Action where
  /-- Position among the actions, or among the goals. -/
  index : Nat
  name : String
  isGoal : Bool
  durations : List DurationBound
  startConditions : List Condition
  invariants : List Condition
  endConditions : List Condition
  startNumericConditions : List NumericCondition
  numericInvariants : List NumericCondition
  endNumericConditions : List NumericCondition
  startEffects : List Condition
  endEffects : List Condition
  startNumericEffects : List NumericEffect
  endNumericEffects : List NumericEffect
  preferences : List Preference
  cost : Cost Float

namespace Action

/-- The action without conditions and effects, whose cost is not known. -/
def empty (index : Nat) (name : String) (isGoal : Bool) : Action where
  index := index
  name := name
  isGoal := isGoal
  durations := []
  startConditions := []
  invariants := []
  endConditions := []
  startNumericConditions := []
  numericInvariants := []
  endNumericConditions := []
  startEffects := []
  endEffects := []
  startNumericEffects := []
  endNumericEffects := []
  preferences := []
  cost := ⟨false, [], false, 0.0⟩

variable (a : Action)

/-- The conditions at start, over all and at end. -/
def conditions : List Condition := a.startConditions ++ a.invariants ++ a.endConditions

/-- The effects at start and at end. -/
def effects : List Condition := a.startEffects ++ a.endEffects

/-- The numeric effects at start and at end. -/
def numericEffects : List NumericEffect := a.startNumericEffects ++ a.endNumericEffects

end Action

/-! ## Tasks -/

/-- The positions of actions by the codes of facts. -/
abbrev ActionIndex := Std.TreeMap Nat (List Nat)

/-- A finite-domain task. -/
structure Task where
  values : Registry String Value Value.name
  vars : Array Variable
  numericVars : Array NumericVariable
  actions : Array Action
  goals : Array Action
  preferenceNames : List String
  constraints : List Constraint
  metric : Option Metric
  /-- Codes of facts that never hold together, every pair in both orders. -/
  mutex : PairSet
  /-- Mutex facts the second of which cannot be reached from the first. -/
  permanentMutex : PairSet
  /-- Positions of actions that never follow each other. -/
  permanentMutexActions : PairSet
  /-- The value of every variable at time zero. -/
  initialState : Array (Option ValueId)
  /-- The number of every numeric variable at time zero. -/
  numericInitialState : Array Float
  /-- The actions with a condition on each fact. -/
  requirers : ActionIndex
  /-- The actions with an effect on each fact. -/
  producers : ActionIndex
  /-- The actions without conditions. -/
  unconditioned : Array Nat
  /-- Whether the metric reads the makespan. -/
  metricDependsOnTime : Bool
  /-- Whether the cost of an action depends on the state. -/
  hasVariableCosts : Bool

namespace Task

/-- The table of the three reserved values. -/
def reservedValues : Registry String Value Value.name :=
  ["<true>", "<false>", "<undefined>"].foldl
    (fun values name => (values.intern ⟨⟨values.size⟩, name, none⟩).2) Registry.empty

/-- The task without variables and actions. -/
def empty : Task where
  values := reservedValues
  vars := #[]
  numericVars := #[]
  actions := #[]
  goals := #[]
  preferenceNames := []
  constraints := []
  metric := none
  mutex := ∅
  permanentMutex := ∅
  permanentMutexActions := ∅
  initialState := #[]
  numericInitialState := #[]
  requirers := ∅
  producers := ∅
  unconditioned := #[]
  metricDependsOnTime := false
  hasVariableCosts := false

variable (t : Task)

/-! ### Names -/

/-- The value with a name. -/
def value? (name : String) : Option ValueId := (t.values.find? name).map ValueId.mk

/-- The name of a value, a question mark if there is no such value. -/
def valueName (value : ValueId) : String := ((t.values.get? value.index).map (·.name)).getD "?"

/-- The name of a variable, a question mark if there is no such variable. -/
def varName (var : Nat) : String := (t.vars[var]?.map (·.name)).getD "?"

/-- The name of a numeric variable, a question mark if there is no such variable. -/
def numericName (var : Nat) : String := (t.numericVars[var]?.map (·.name)).getD "?"

/-- The name of a preference, a question mark if there is no such preference. -/
def preferenceName (index : Nat) : String := t.preferenceNames.getD index "?"

/-! ### Mutex facts -/

/-- Whether two facts never hold together. -/
def isMutex (c d : FactCode) : Bool := t.mutex.contains (c.code, d.code)

/-- Whether the second fact is never reached once the first holds. -/
def isPermanentMutex (c d : FactCode) : Bool := t.permanentMutex.contains (c.code, d.code)

/-- Whether two actions never follow each other. -/
def isPermanentMutexAction (a b : Nat) : Bool := t.permanentMutexActions.contains (a, b)

end Task

end TemporalPlanning.FiniteDomain
