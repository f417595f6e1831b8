import TemporalPlanning.Error
import TemporalPlanning.Lifted.Basic
/-!
Conventions that a task must keep.

The first two types and objects have reserved names, every position is within its table, every
function is applied to as many arguments as it has parameters, and every parameter is bound by
the operator or a quantifier around it. The checks run in the order of the document and the first
defect is reported.
-/
set_option autoImplicit false

namespace TemporalPlanning.Lifted

/-- The result of a check. -/
abbrev Check := Except Defect Unit

/-- Reports a defect unless the condition holds. -/
def require (condition : Bool) (defect : Defect) : Check :=
  if condition then .ok () else .error defect

namespace Task

variable (task : Task)

/-! ## Positions -/

def checkTypes (context : String) (types : List TypeId) : Check :=
  types.forM fun type => require (type.index < task.types.size) (.unknownType type context)

def checkObject (context : String) (object : ObjectId) : Check :=
  require (object.index < task.objects.size) (.unknownObject object context)

/-- A function must exist and take the given number of arguments. -/
def checkFunction (context : String) (function : FunctionId) (arity : Nat) : Check :=
  match task.functions[function.index]? with
  | none => .error (.unknownFunction function context)
  | some f =>
    require (f.parameters.length = arity) (.wrongArity f.name f.parameters.length arity context)

/-! ## Terms, expressions and goals

`bound` is the number of parameters that operators and quantifiers around a construct bind. -/

def checkTerm (context : String) (bound : Nat) : Term → Check
  | .param i => require (i < bound) (.unknownParameter i context)
  | .object o => task.checkObject context o

def checkLiteral (context : String) (bound : Nat) (literal : Literal) : Check := do
  task.checkFunction context literal.function literal.arguments.length
  literal.arguments.forM (task.checkTerm context bound)

def checkQuantity (context : String) (bound : Nat) : Quantity → Check
  | .number _ | .duration | .elapsed => .ok ()
  | .term t => task.checkTerm context bound t
  | .fluent l => task.checkLiteral context bound l

mutual

/-- An operation must have operands, and its operands must be sound. -/
def checkExpression (context : String) (bound : Nat) : Expression Quantity → Check
  | .atom q => task.checkQuantity context bound q
  | .node _ operands => do
    require (!operands.isEmpty) (.noOperands context)
    checkExpressions context bound operands

def checkExpressions (context : String) (bound : Nat) : List (Expression Quantity) → Check
  | [] => .ok ()
  | e :: rest => do
    checkExpression context bound e
    checkExpressions context bound rest

end

mutual

/-- A quantifier binds its parameters inside its goal. -/
def checkGoal (context : String) (bound : Nat) : Goal → Check
  | .literal l | .negLiteral l => task.checkLiteral context bound l
  | .and goals | .or goals => checkGoals context bound goals
  | .not goal | .timed _ goal => checkGoal context bound goal
  | .imply premise conclusion => do
    checkGoal context bound premise
    checkGoal context bound conclusion
  | .existential parameters goal | .universal parameters goal => do
    parameters.forM fun p => task.checkTypes context p.types
    checkGoal context (bound + parameters.length) goal
  | .compare _ left right => do
    task.checkExpression context bound left
    task.checkExpression context bound right
  | .equality left right | .inequality left right => do
    task.checkTerm context bound left
    task.checkTerm context bound right

def checkGoals (context : String) (bound : Nat) : List Goal → Check
  | [] => .ok ()
  | goal :: rest => do
    checkGoal context bound goal
    checkGoals context bound rest

end

/-! ## Constraints and metric -/

mutual

/-- The goals of a preference are reported under its name. -/
def checkConstraint (bound : Nat) : Constraint → Check
  | .and constraints => checkConstraints bound constraints
  | .universal parameters constraint => do
    parameters.forM fun p => task.checkTypes "constraint" p.types
    checkConstraint (bound + parameters.length) constraint
  | .preference _ constraint => checkConstraint bound constraint
  | .goalPreference name goal => task.checkGoal name bound goal
  | .temporal modality times goals => do
    require (goals.length = modality.arity.1 && times.length = modality.arity.2)
      (.wrongShape modality.keyword modality.arity.1 modality.arity.2)
    goals.forM (task.checkGoal "constraint" bound)

def checkConstraints (bound : Nat) : List Constraint → Check
  | [] => .ok ()
  | constraint :: rest => do
    checkConstraint bound constraint
    checkConstraints bound rest

end

def checkMeasure : Measure → Check
  | .number _ | .totalTime | .isViolated _ => .ok ()
  | .fluent function arguments => do
    task.checkFunction "metric" function arguments.length
    arguments.forM (task.checkObject "metric")

mutual

def checkMetric : Expression Measure → Check
  | .atom m => task.checkMeasure m
  | .node _ operands => do
    require (!operands.isEmpty) .noMetricOperands
    checkMetrics operands

def checkMetrics : List (Expression Measure) → Check
  | [] => .ok ()
  | e :: rest => do
    checkMetric e
    checkMetrics rest

end

/-! ## Facts and operators -/

/-- A fact must give numeric functions numbers and all others objects. -/
def checkFact (fact : Fact) : Check := do
  task.checkFunction "initial state" fact.function fact.arguments.length
  fact.arguments.forM (task.checkObject "initial state")
  match fact.value with
  | .object o =>
    task.checkObject "initial state" o
    require (!task.isNumeric fact.function) (.objectForNumeric (task.functionName fact.function))
  | .number _ =>
    require (task.isNumeric fact.function)
      (.numberForNonNumeric (task.functionName fact.function))

def checkFluent (context : String) (bound : Nat) (fluent : Fluent) : Check := do
  task.checkLiteral context bound fluent.literal
  task.checkTerm context bound fluent.value

def checkNumericCondition (context : String) (bound : Nat) (c : NumericCondition) : Check :=
  c.operands.forM (task.checkExpression context bound)

def checkNumericEffect (context : String) (bound : Nat) (e : NumericEffect) : Check := do
  task.checkLiteral context bound e.fluent
  task.checkExpression context bound e.expression

def checkHappening (context : String) (bound : Nat) (h : Happening) : Check := do
  h.conditions.forM (task.checkFluent context bound)
  h.effects.forM (task.checkFluent context bound)
  h.numericConditions.forM (task.checkNumericCondition context bound)
  h.numericEffects.forM (task.checkNumericEffect context bound)

/-- The parts of an operator are reported under its name. -/
def checkOperator (op : Operator) : Check := do
  let bound := op.parameters.length
  op.parameters.forM fun p => task.checkTypes op.name p.types
  op.durations.forM fun d => task.checkExpression op.name bound d.expression
  task.checkHappening op.name bound op.atStart
  task.checkHappening op.name bound op.atEnd
  op.invariants.forM (task.checkFluent op.name bound)
  op.numericInvariants.forM (task.checkNumericCondition op.name bound)
  op.identities.forM fun i => do
    task.checkTerm op.name bound i.left
    task.checkTerm op.name bound i.right
  op.preferences.forM fun p => task.checkGoal op.name bound p.goal

/-! ## Tables -/

/-- Types `0` and `1` are those of truth values and numbers, objects `0` and `1` are false and
true. -/
def checkReserved : Check := do
  require
    ((task.types[0]?.map (·.name)) == some "#boolean"
      && (task.types[1]?.map (·.name)) == some "number")
    .reservedTypes
  require
    ((task.objects[0]?.map (·.name)) == some "#false"
      && (task.objects[1]?.map (·.name)) == some "#true")
    .reservedObjects

def checkTables : Check := do
  task.types.toList.forM fun t => task.checkTypes t.name t.parents
  task.objects.toList.forM fun o => task.checkTypes o.name o.types
  task.functions.toList.forM fun f => do
    task.checkTypes f.name f.valueTypes
    f.parameters.forM fun p => task.checkTypes f.name p.types

end Task

/-- Checks a task and its operators. -/
def Problem.validate (p : Problem) : Except Error Unit :=
  Except.mapError Error.invalidTask do
    p.task.checkReserved
    p.task.checkTables
    p.task.init.forM p.task.checkFact
    p.task.constraints.forM (p.task.checkConstraint 0)
    match p.task.metric with
    | some metric => p.task.checkMetric metric.expression
    | none => pure ()
    p.operators.forM p.task.checkOperator

end TemporalPlanning.Lifted
