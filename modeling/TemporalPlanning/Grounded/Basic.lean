import TemporalPlanning.Error
import TemporalPlanning.Form
/-!
Grounded planning tasks.

Grounding replaces operators by actions without parameters. A grounded variable is a function
applied to objects. Literal conditions and effects say that a variable has an object as its
value; numeric ones compare and change the variables of numeric functions. While quantifiers are
still in place, goals refer to the parameters of quantifiers by number, from the outermost inwards.
-/
set_option autoImplicit false

namespace TemporalPlanning.Grounded

/-! ## Variables, conditions and effects -/

/-- Records the level at which a value is reached, in ascending order of the values; a later
record replaces an earlier one. -/
def setLevel (object : ObjectId) (level : Nat) : List (ObjectId × Nat) → List (ObjectId × Nat)
  | [] => [(object, level)]
  | entry :: rest =>
    if object.index < entry.1.index then (object, level) :: entry :: rest
    else if object = entry.1 then (object, level) :: rest
    else entry :: setLevel object level rest

/-- A function applied to objects. -/
structure Variable where
  /-- Position in the variable table. -/
  index : VarId
  function : FunctionId
  arguments : List ObjectId
  isNumeric : Bool
  /-- The values that grounding has reached, in ascending order, with the level at which each
  was reached first. -/
  reached : List (ObjectId × Nat)
  /-- Values of the initial state with their times. -/
  initialValues : List (Float × Value)
deriving DecidableEq

namespace Variable

variable (v : Variable)

/-- Whether grounding has reached a value. -/
def isReached (value : ObjectId) : Bool := v.reached.any fun entry => entry.1 == value

/-- The first value given for time zero. -/
def valueAtStart : Option Value := (v.initialValues.find? fun entry => entry.1 == 0.0).map Prod.snd

end Variable

/-- A variable has a value, as a condition or an effect. -/
structure Condition where
  var : VarId
  value : ObjectId
deriving DecidableEq

/-- A leaf of a numeric expression. -/
inductive Quantity where
  | number (x : Float)
  | var (var : VarId)
  | object (object : ObjectId)
  /-- The duration of the action. -/
  | duration
  /-- The time since the action started. -/
  | elapsed
deriving DecidableEq

/-- A numeric condition; it compares two expressions. -/
structure NumericCondition where
  comparator : Comparator
  terms : List (Expression Quantity)

/-- A numeric effect. -/
structure NumericEffect where
  assignment : Assignment
  var : VarId
  expression : Expression Quantity

/-- A bound on the duration of an action. -/
structure DurationBound where
  time : TimePoint
  comparator : Comparator
  expression : Expression Quantity

/-! ## Goals -/

/-- An object or a quantified parameter. -/
inductive PartialTerm where
  | object (object : ObjectId)
  | quantified (index : Nat)
deriving DecidableEq

/-- The object that a term denotes, if it is not a parameter. -/
def PartialTerm.object? : PartialTerm → Option ObjectId
  | .object o => some o
  | .quantified _ => none

/-- A leaf of a numeric expression in a goal. -/
inductive PartialQuantity where
  | number (x : Float)
  | var (var : VarId)
  /-- A function some of whose arguments are quantified parameters. -/
  | ungrounded (function : FunctionId) (arguments : List PartialTerm)
  | term (term : PartialTerm)
deriving DecidableEq

/-- A goal over grounded variables. -/
inductive Goal where
  /-- A variable has (or does not have) a value. -/
  | fluent (var : VarId) (value : ObjectId) (equal : Bool)
  /-- A function application that refers to quantified parameters. -/
  | ungroundedFluent (function : FunctionId) (arguments : List PartialTerm) (value : PartialTerm)
      (equal : Bool)
  | and (goals : List Goal)
  | or (goals : List Goal)
  | not (goal : Goal)
  | imply (premise conclusion : Goal)
  /-- A quantifier, with the types of each of its parameters. -/
  | existential (types : List (List TypeId)) (goal : Goal)
  | universal (types : List (List TypeId)) (goal : Goal)
  /-- Two terms are (or are not) the same object. -/
  | equality (equal : Bool) (left right : PartialTerm)
  | compare (comparator : Comparator) (terms : List (Expression PartialQuantity))
  | timed (time : TimePoint) (goal : Goal)
  /-- A goal that has been decided. -/
  | constant (holds : Bool)
deriving Inhabited

/-- A soft goal of an action, with the position of its name. -/
structure Preference where
  nameIndex : Nat
  goal : Goal

/-! ## Actions -/

/-- An instance of an operator. -/
structure Action where
  /-- Position among the actions, or among the goals. -/
  index : Nat
  /-- The name of the operator followed by the names of its arguments. -/
  name : String
  /-- Position of the operator. -/
  operator : Nat
  arguments : List ObjectId
  durations : List DurationBound
  startConditions : List Condition
  invariants : List Condition
  endConditions : List Condition
  startNumericConditions : List NumericCondition
  numericInvariants : List NumericCondition
  endNumericConditions : List NumericCondition
  startEffects : List Condition
  endEffects : List Condition
  startNumericEffects : List NumericEffect
  endNumericEffects : List NumericEffect
  preferences : List Preference
  isGoal : Bool

namespace Action

variable (a : Action)

/-- The literal conditions at start, over all and at end. -/
def conditions : List Condition := a.startConditions ++ a.invariants ++ a.endConditions

/-- The numeric conditions at start, over all and at end. -/
def numericConditions : List NumericCondition :=
  a.startNumericConditions ++ a.numericInvariants ++ a.endNumericConditions

/-- The literal effects at start and at end. -/
def effects : List Condition := a.startEffects ++ a.endEffects

/-- The numeric effects at start and at end. -/
def numericEffects : List NumericEffect := a.startNumericEffects ++ a.endNumericEffects

/-- Whether an effect of the action changes a variable. -/
def writes (var : VarId) : Bool :=
  a.effects.any (fun e => e.var == var) || a.numericEffects.any fun e => e.var == var

end Action

/-! ## Constraints, metric and statistics -/

/-- A trajectory constraint over grounded goals. -/
inductive Constraint where
  | and (constraints : List Constraint)
  | preference (nameIndex : Nat) (constraint : Constraint)
  | goalPreference (nameIndex : Nat) (goal : Goal)
  | temporal (modality : Modality) (times : List Float) (goals : List Goal)

/-- A leaf of a metric. -/
inductive Measure where
  | number (x : Float)
  | totalTime
  /-- Violations of the preference whose name has the given position. -/
  | isViolated (nameIndex : Nat)
  | var (var : VarId)
deriving DecidableEq

/-- What a plan is measured by. -/
structure Metric where
  objective : Objective
  expression : Expression Measure

/-- What one level of grounding has added. -/
structure LevelStats where
  level : Nat
  /-- Values reached first at this level. -/
  newValues : Nat
  /-- Actions and goals grounded at this level. -/
  newActions : Nat
  /-- Number of variables at the end of the level. -/
  vars : Nat
deriving DecidableEq

/-- Statistics of grounding. -/
structure Stats where
  levels : List LevelStats
  /-- Number of variables removed because they never change. -/
  staticVariables : Nat
  /-- Number of actions and goals dropped after they were grounded. -/
  droppedActions : Nat
deriving DecidableEq

/-- A grounded task. -/
structure Task where
  /-- The lifted task that was grounded. -/
  task : Lifted.Task
  vars : Array Variable
  actions : List Action
  goals : List Action
  preferenceNames : List String
  constraints : List Constraint
  metric : Option Metric
  stats : Stats

namespace Task

variable (t : Task)

/-- The name of a variable, its label if there is no such variable. -/
def varName (var : VarId) : String :=
  match t.vars[var.index]? with
  | some v => t.task.variableName v.function v.arguments
  | none => var.label

/-- Whether a variable is a proposition. -/
def isProposition (var : VarId) : Bool :=
  match t.vars[var.index]? with
  | some v => t.task.isPredicate v.function
  | none => false

end Task

end TemporalPlanning.Grounded
