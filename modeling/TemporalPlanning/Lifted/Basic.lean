import TemporalPlanning.Arithmetic.Expression
import TemporalPlanning.Identifier
/-!
Lifted planning tasks.

A task consists of tables of types, objects and functions, an initial state, trajectory
constraints and a metric, and comes with the operators that act on it. A predicate is a function
whose only value type is that of truth values; a numeric function has the type of numbers as its
only value type. Parameters are referred to by number: inside an operator the numbers below its
parameter count are its own parameters, larger numbers are the parameters of the enclosing
quantifiers from the outermost inwards.
-/
set_option autoImplicit false

namespace TemporalPlanning

/-- When a condition, effect or bound of a durative action applies. -/
inductive TimePoint where
  | atStart
  | atEnd
  | overAll
  | unspecified
deriving DecidableEq

namespace TimePoint

def all : List TimePoint := [.atStart, .atEnd, .overAll, .unspecified]

/-- Name in documents. -/
def name : TimePoint → String
  | .atStart => "at_start"
  | .atEnd => "at_end"
  | .overAll => "over_all"
  | .unspecified => "none"

/-- Keyword in texts. -/
def keyword : TimePoint → String
  | .atStart => "at start"
  | .atEnd => "at end"
  | .overAll => "over all"
  | .unspecified => ""

end TimePoint

/-- The modal operator of a trajectory constraint. -/
inductive Modality where
  | atEnd
  | always
  | sometime
  | within
  | atMostOnce
  | sometimeAfter
  | sometimeBefore
  | alwaysWithin
  | holdDuring
  | holdAfter
deriving DecidableEq

namespace Modality

def all : List Modality :=
  [.atEnd, .always, .sometime, .within, .atMostOnce, .sometimeAfter, .sometimeBefore,
    .alwaysWithin, .holdDuring, .holdAfter]

/-- Name in documents. -/
def name : Modality → String
  | .atEnd => "at_end"
  | .always => "always"
  | .sometime => "sometime"
  | .within => "within"
  | .atMostOnce => "at_most_once"
  | .sometimeAfter => "sometime_after"
  | .sometimeBefore => "sometime_before"
  | .alwaysWithin => "always_within"
  | .holdDuring => "hold_during"
  | .holdAfter => "hold_after"

/-- Keyword in texts. -/
def keyword : Modality → String
  | .atEnd => "at end"
  | .always => "always"
  | .sometime => "sometime"
  | .within => "within"
  | .atMostOnce => "at-most-once"
  | .sometimeAfter => "sometime-after"
  | .sometimeBefore => "sometime-before"
  | .alwaysWithin => "always-within"
  | .holdDuring => "hold-during"
  | .holdAfter => "hold-after"

/-- The number of goals and of times that the operator takes. -/
def arity : Modality → Nat × Nat
  | .atEnd | .always | .sometime | .atMostOnce => (1, 0)
  | .within | .holdAfter => (1, 1)
  | .sometimeAfter | .sometimeBefore => (2, 0)
  | .alwaysWithin => (2, 1)
  | .holdDuring => (1, 2)

end Modality

/-- Direction of an optimisation. -/
inductive Objective where
  | minimize
  | maximize
deriving DecidableEq

namespace Objective

def all : List Objective := [.minimize, .maximize]

/-- Name in documents and texts. -/
def name : Objective → String
  | .minimize => "minimize"
  | .maximize => "maximize"

end Objective

/-- Value of a function: an object, or a number if the function is numeric. -/
inductive Value where
  | object (object : ObjectId)
  | number (number : Float)
deriving DecidableEq

namespace Value

/-- The object, if the value is one. -/
def object? : Value → Option ObjectId
  | .object o => some o
  | .number _ => none

/-- The number, if the value is one. -/
def number? : Value → Option Float
  | .object _ => none
  | .number x => some x

/-- Whether the value is a number. -/
def isNumeric : Value → Bool
  | .object _ => false
  | .number _ => true

end Value

namespace Lifted

/-! ## Tables -/

/-- A type and its direct supertypes. -/
structure TypeEntry where
  name : String
  parents : List TypeId
deriving DecidableEq

/-- An object and the types it belongs to. -/
structure ObjectEntry where
  name : String
  types : List TypeId
deriving DecidableEq

/-- A parameter, which takes objects of any of its types. -/
structure Parameter where
  name : String
  types : List TypeId
deriving DecidableEq

/-- A predicate or function. -/
structure FunctionEntry where
  name : String
  parameters : List Parameter
  valueTypes : List TypeId
deriving DecidableEq

/-! ## Conditions and expressions -/

/-- A parameter or an object. -/
inductive Term where
  | param (index : Nat)
  | object (object : ObjectId)
deriving DecidableEq

/-- A function applied to terms. -/
structure Literal where
  function : FunctionId
  arguments : List Term
deriving DecidableEq

/-- A leaf of a numeric expression. -/
inductive Quantity where
  | number (x : Float)
  | term (term : Term)
  /-- The value of a function. -/
  | fluent (literal : Literal)
  /-- The duration of the action. -/
  | duration
  /-- The time since the action started. -/
  | elapsed
deriving DecidableEq

/-- A goal, possibly quantified. -/
inductive Goal where
  | literal (literal : Literal)
  | negLiteral (literal : Literal)
  | and (goals : List Goal)
  | or (goals : List Goal)
  | not (goal : Goal)
  | imply (premise conclusion : Goal)
  | existential (parameters : List Parameter) (goal : Goal)
  | universal (parameters : List Parameter) (goal : Goal)
  /-- A comparison of numbers, or of a function with a term. -/
  | compare (comparator : Comparator) (left right : Expression Quantity)
  | equality (left right : Term)
  | inequality (left right : Term)
  /-- A goal tied to a time point of an action. -/
  | timed (time : TimePoint) (goal : Goal)

/-- A trajectory constraint. -/
inductive Constraint where
  | and (constraints : List Constraint)
  | universal (parameters : List Parameter) (constraint : Constraint)
  | preference (name : String) (constraint : Constraint)
  | goalPreference (name : String) (goal : Goal)
  | temporal (modality : Modality) (times : List Float) (goals : List Goal)

/-- A leaf of a metric. -/
inductive Measure where
  | number (x : Float)
  /-- The makespan of the plan. -/
  | totalTime
  /-- The number of violations of a preference. -/
  | isViolated (preference : String)
  /-- The final value of a numeric function. -/
  | fluent (function : FunctionId) (arguments : List ObjectId)
deriving DecidableEq

/-- What a plan is measured by. -/
structure Metric where
  objective : Objective
  expression : Expression Measure

/-! ## Tasks and operators -/

/-- A function value in the initial state, or, at a positive time, a value set at that time. -/
structure Fact where
  function : FunctionId
  arguments : List ObjectId
  value : Value
  time : Float
deriving DecidableEq

/-- A planning task without its operators. -/
structure Task where
  domainName : String
  problemName : String
  types : Array TypeEntry
  objects : Array ObjectEntry
  functions : Array FunctionEntry
  init : List Fact
  constraints : List Constraint
  metric : Option Metric

/-- A condition or effect: a function application has a value. -/
structure Fluent where
  literal : Literal
  value : Term
deriving DecidableEq

/-- A numeric condition. -/
structure NumericCondition where
  comparator : Comparator
  operands : List (Expression Quantity)

/-- A numeric effect. -/
structure NumericEffect where
  assignment : Assignment
  fluent : Literal
  expression : Expression Quantity

/-- Conditions and effects at one time point. -/
structure Happening where
  conditions : List Fluent
  numericConditions : List NumericCondition
  effects : List Fluent
  numericEffects : List NumericEffect

/-- The happening without conditions and effects. -/
def Happening.empty : Happening := ⟨[], [], [], []⟩

/-- A bound on the duration of an action. -/
structure DurationBound where
  time : TimePoint
  comparator : Comparator
  expression : Expression Quantity

/-- Two terms that must (or must not) be the same object. -/
structure Identity where
  equal : Bool
  left : Term
  right : Term
deriving DecidableEq

/-- A named soft goal of an operator. -/
structure Preference where
  name : String
  goal : Goal

/-- An operator schema. -/
structure Operator where
  name : String
  parameters : List Parameter
  durations : List DurationBound
  atStart : Happening
  atEnd : Happening
  invariants : List Fluent
  numericInvariants : List NumericCondition
  identities : List Identity
  preferences : List Preference
  /-- Whether the operator stands for a goal of the task. -/
  isGoal : Bool

/-- A task and its operators. -/
structure Problem where
  task : Task
  operators : List Operator

/-! ## Names and kinds -/

namespace Task

variable (task : Task)

/-- Whether a function is a predicate. -/
def isPredicate (function : FunctionId) : Bool :=
  (task.functions[function.index]?.map (·.valueTypes)) == some [TypeId.boolean]

/-- Whether a function takes numbers. -/
def isNumeric (function : FunctionId) : Bool :=
  (task.functions[function.index]?.map (·.valueTypes)) == some [TypeId.number]

/-- The name of an object, a question mark if there is no such object. -/
def objectName (object : ObjectId) : String :=
  (task.objects[object.index]?.map (·.name)).getD "?"

/-- The name of a function, a question mark if there is no such function. -/
def functionName (function : FunctionId) : String :=
  (task.functions[function.index]?.map (·.name)).getD "?"

/-- The types of an object. -/
def typesOf (object : ObjectId) : List TypeId :=
  (task.objects[object.index]?.map (·.types)).getD []

/-- The value types of a function. -/
def valueTypesOf (function : FunctionId) : List TypeId :=
  (task.functions[function.index]?.map (·.valueTypes)).getD []

/-- A name followed by the names of objects. -/
def applied (name : String) (arguments : List ObjectId) : String :=
  name ++ String.join (arguments.map fun o => " " ++ task.objectName o)

/-- The name of a function applied to objects, such as `(at truck depot)`. -/
def variableName (function : FunctionId) (arguments : List ObjectId) : String :=
  "(" ++ task.applied (task.functionName function) arguments ++ ")"

end Task

/-! ## Problems over propositions

The smallest problems have no objects but the truth values and no functions but propositions, and
their operators have no parameters. They are given by the names of the propositions, the ones that
are true at the beginning, and operators over literals. -/

/-- The predicate at a position, without arguments, has a truth value. -/
def Fluent.ofProposition (position : Nat) (value : ObjectId) : Fluent :=
  ⟨⟨⟨position⟩, []⟩, .object value⟩

/-- An ordinary operator without parameters that happens at a start and an end. -/
def Operator.ofHappenings (name : String) (atStart atEnd : Happening) : Operator where
  name := name
  parameters := []
  durations := []
  atStart := atStart
  atEnd := atEnd
  invariants := []
  numericInvariants := []
  identities := []
  preferences := []
  isGoal := false

/-- The task of a problem over propositions. -/
def Task.ofPropositions (names : List String) (facts : List Nat) : Task where
  domainName := "propositions"
  problemName := "problem"
  types := #[⟨"#boolean", []⟩, ⟨"number", []⟩]
  objects := #[⟨"#false", [TypeId.boolean]⟩, ⟨"#true", [TypeId.boolean]⟩]
  functions := (names.map fun name => ⟨name, [], [TypeId.boolean]⟩).toArray
  init := facts.map fun position => ⟨⟨position⟩, [], .object .truth, 0.0⟩
  constraints := []
  metric := none

end Lifted

end TemporalPlanning
