import TemporalPlanning.Grounding.Instance
/-!
Grounding by saturation, level by level.

Level `0` consists of the values of the initial state. At every level each new value triggers the
matches it takes part in, every match becomes an action if it can, and the effects of new actions
are the values of the next level. Operators without conditions to match are instantiated before
level `0`; their effects belong to level `1`. Grounding stops when no value is left that has not
triggered its matches. Every level but the first starts with a new value, and there are at most as
many values as functions applied to objects with an object each, which bounds the number of levels.
-/
set_option autoImplicit false

namespace TemporalPlanning.Grounding

open Grounded

/-- The operators of a problem prepared for matching. -/
def schemasOf (setting : Setting) (operators : List Lifted.Operator) : List Schema :=
  operators.zipIdx.map fun (op, i) => Schema.ofOperator setting i op

/-! ## Levels -/

/-- Creates the variables of all facts. -/
def createInitialVariables (task : Lifted.Task) : Step Unit :=
  task.init.forM fun fact => discard (variableOf task fact.function fact.arguments)

/-- Reaches the objects that the facts have as values. -/
def reachInitialValues (task : Lifted.Task) : Step Unit :=
  task.init.forM fun fact =>
    match fact.value with
    | .object object => do
      let var ← variableOf task fact.function fact.arguments
      reach 0 ⟨var, object⟩
    | .number _ => return

/-- Makes the values of the initial state the values of the first level. -/
def start (task : Lifted.Task) : Step Unit := do
  createInitialVariables task
  reachInitialValues task
  modify fun state => { state with levelEnd := state.values.size }

/-- Looks at all instances of the operators that have no conditions to match. -/
def groundUnconditional (setting : Setting) (schemas : List Schema) : Step Unit :=
  (schemas.filter fun s => s.preconditions.isEmpty).forM fun s =>
    (completions s.unbound s.candidates).forM fun arguments =>
      groundInstance setting.task arguments s

/-- Looks at all instances that the value at a position triggers. -/
def groundTriggered (setting : Setting) (schemas : List Schema) (values : List ReachedValue)
    (start : Nat) (trigger : ReachedValue × Nat) : Step Unit :=
  let allowed := allowedFrom values start trigger.2
  schemas.forM fun s =>
    (instancesOf setting s trigger.1 allowed).forM fun arguments =>
      groundInstance setting.task arguments s

/-- Records the statistics of the current level and moves on to the next one. -/
def finishLevel : Step Unit := modify fun state =>
  let found := state.actions.size + state.goals.size
  { state with
    levels := state.levels.push
      { level := state.level
        newValues := state.levelEnd - state.levelStart
        newActions := found - state.counted
        vars := state.vars.size }
    counted := found
    level := state.level + 1
    levelStart := state.levelEnd
    levelEnd := state.values.size }

/-- Looks at all instances that the values of the current level trigger. -/
def runLevel (setting : Setting) (schemas : List Schema) : Step Unit := do
  let state ← get
  let values := state.values.toList.take state.levelEnd
  ((values.drop state.levelStart).zipIdx state.levelStart).forM
    (groundTriggered setting schemas values state.levelStart)
  finishLevel

/-- Runs levels until every value has triggered its matches. -/
def runLevels (setting : Setting) (schemas : List Schema) : Nat → Step Unit
  | 0 => return
  | fuel + 1 => do
    let state ← get
    if state.levelStart < state.values.size then
      runLevel setting schemas
      runLevels setting schemas fuel

/-- The number of ways to apply a function to objects and give it an object as its value. -/
def valueBound (task : Lifted.Task) : Nat :=
  task.functions.toList.foldl
    (fun bound f => bound + Nat.pow task.objects.size (f.parameters.length + 1)) 0

/-! ## Preferences, constraints and metric -/

/-- Eliminates the quantifiers of preferences; those that cannot be resolved are dropped. -/
def resolvePreferences (setting : Setting) (preferences : List Preference) :
    Step (List Preference) :=
  collect (fun p => do
    let state ← get
    let goal? ← (instantiate setting state.vars [] p.goal : Except Error _)
    return goal?.map fun goal => { p with goal }) preferences

/-- Eliminates the quantifiers in the preferences of an action. -/
def resolveAction (setting : Setting) (action : Action) : Step Action := do
  return { action with preferences := ← resolvePreferences setting action.preferences }

/-- A leaf of the metric. The variables it reads must exist. -/
def groundMeasure (task : Lifted.Task) : Lifted.Measure → Step Measure
  | .number x => return .number x
  | .totalTime => return .totalTime
  | .isViolated name => return .isViolated (← preferenceIndex name)
  | .fluent function arguments => do
    let state ← get
    match state.vars.var? function arguments with
    | some var => return .var var
    | none => throw (.unknownVariable (task.variableName function arguments))

/-- The metric over grounded variables. -/
def groundMetric (task : Lifted.Task) (metric : Lifted.Metric) : Step Metric := do
  return ⟨metric.objective, ← metric.expression.mapM (groundMeasure task)⟩

/-! ## The saturated task -/

/-- Grounds everything that is reachable. -/
def saturate (problem : Lifted.Problem) : Step Task := do
  let task := problem.task
  let setting := Setting.ofTask task
  let schemas := schemasOf setting problem.operators
  start task
  groundUnconditional setting schemas
  runLevels setting schemas (valueBound task + 1)
  let state ← get
  let actions ← state.actions.toList.mapM (resolveAction setting)
  let goals ← state.goals.toList.mapM (resolveAction setting)
  let constraints ← collect (groundConstraint setting []) task.constraints
  let metric ← task.metric.mapM (groundMetric task)
  let state ← get
  return {
    task
    vars := state.vars.entries
    actions
    goals
    preferenceNames := state.preferenceNames.entries.toList
    constraints
    metric
    stats := ⟨state.levels.toList, 0, 0⟩ }

end TemporalPlanning.Grounding
