import TemporalPlanning.FiniteDomain.Basic
import TemporalPlanning.Lifted.Format
/-!
Document form of finite-domain tasks.

All fields are written, and all must be given where a document is read. A task is only written.
Mutex facts are pairs of codes; the actions of facts are objects with codes as names.
-/
set_option autoImplicit false

namespace TemporalPlanning.FiniteDomain

open Format

/-! ## Values and variables -/

instance : Format Value where
  write v := .record
    [("index", write v.index), ("name", write v.name), ("function", write v.function)]
  read? j := do
    let r ← j.record? ["index", "name", "function"]
    return {
      index := ← r.required "index"
      name := ← r.required "name"
      function := ← r.optional "function" }

instance : Format Variable where
  write v := .record
    [("index", write v.index), ("name", write v.name), ("possible_values", write v.domain),
      ("initial_values", write v.initialValues)]
  read? j := do
    let r ← j.record? ["index", "name", "possible_values", "initial_values"]
    return {
      index := ← r.required "index"
      name := ← r.required "name"
      domain := ← r.required "possible_values"
      initialValues := ← r.required "initial_values" }

instance : Format NumericVariable where
  write v := .record
    [("index", write v.index), ("name", write v.name), ("initial_values", write v.initialValues)]
  read? j := do
    let r ← j.record? ["index", "name", "initial_values"]
    return {
      index := ← r.required "index"
      name := ← r.required "name"
      initialValues := ← r.required "initial_values" }

/-! ## Expressions -/

instance : Format Quantity where
  write
    | .number x => Json.chosen "number" x
    | .var v => Json.chosen "var" v
    | .duration => .string "duration"
    | .elapsed => .string "sharp_t"
  read? j := do
    let c ← j.choice?
    match c.name with
    | "number" => return .number (← c.read?)
    | "var" => return .var (← c.read?)
    | "duration" => if c.isBare then return .duration else none
    | "sharp_t" => if c.isBare then return .elapsed else none
    | _ => none

instance : Format Measure where
  write
    | .number x => Json.chosen "number" x
    | .totalTime => .string "total_time"
    | .isViolated i => Json.chosen "is_violated" i
    | .var v => Json.chosen "var" v
  read? j := do
    let c ← j.choice?
    match c.name with
    | "number" => return .number (← c.read?)
    | "total_time" => if c.isBare then return .totalTime else none
    | "is_violated" => return .isViolated (← c.read?)
    | "var" => return .var (← c.read?)
    | _ => none

/-! ## Conditions, effects and goals -/

instance : Format Condition where
  write c := .record
    [("var", write c.var), ("value", write c.value), ("is_modified", write c.isModified)]
  read? j := do
    let r ← j.record? ["var", "value", "is_modified"]
    return {
      var := ← r.required "var"
      value := ← r.required "value"
      isModified := ← r.required "is_modified" }

instance : Format DurationBound where
  write d := .record
    [("time", write d.time), ("comparator", write d.comparator), ("exp", write d.expression)]
  read? j := do
    let r ← j.record? ["time", "comparator", "exp"]
    return {
      time := ← r.required "time"
      comparator := ← r.required "comparator"
      expression := ← r.required "exp" }

instance : Format NumericCondition where
  write c := .record [("comparator", write c.comparator), ("terms", write c.terms)]
  read? j := do
    let r ← j.record? ["comparator", "terms"]
    return { comparator := ← r.required "comparator", terms := ← r.required "terms" }

instance : Format NumericEffect where
  write e := .record
    [("assignment", write e.assignment), ("var", write e.var), ("exp", write e.expression)]
  read? j := do
    let r ← j.record? ["assignment", "var", "exp"]
    return {
      assignment := ← r.required "assignment"
      var := ← r.required "var"
      expression := ← r.required "exp" }

namespace Goal

mutual

/-- The document of a goal. -/
def toJson : Goal → Json
  | .fact var value => .record [("value", .record [("var", write var), ("value", write value)])]
  | .constant holds => Json.chosen "constant" holds
  | .and goals => .record [("and", .array (listToJson goals))]
  | .or goals => .record [("or", .array (listToJson goals))]
  | .not goal => .record [("not", goal.toJson)]
  | .compare comparator terms =>
    .record [("compare", .record [("comparator", write comparator), ("terms", write terms)])]
  | .timed time goal => .record [("at", .record [("time", write time), ("goal", goal.toJson)])]

/-- The documents of a list of goals. -/
def listToJson : List Goal → List Json
  | [] => []
  | goal :: rest => goal.toJson :: listToJson rest

end

/-- Reads a goal nested less than `fuel` deep. -/
def readWithin : Nat → Json → Option Goal
  | 0, _ => none
  | fuel + 1, j => do
    let c ← j.choice?
    match c.name with
    | "value" =>
      let r ← c.record? ["var", "value"]
      return .fact (← r.required "var") (← r.required "value")
    | "constant" => return .constant (← c.read?)
    | "and" => return .and (← c.contents? >>= Json.list? (readWithin fuel))
    | "or" => return .or (← c.contents? >>= Json.list? (readWithin fuel))
    | "not" => return .not (← c.contents? >>= readWithin fuel)
    | "compare" =>
      let r ← c.record? ["comparator", "terms"]
      return .compare (← r.required "comparator") (← r.required "terms")
    | "at" =>
      let r ← c.record? ["time", "goal"]
      return .timed (← r.required "time") (← r.requiredBy "goal" (readWithin fuel))
    | _ => none

end Goal

instance : Format Goal := ⟨Goal.toJson, fun j => Goal.readWithin (j.depth + 1) j⟩

instance : Format Preference where
  write p := .record [("name_index", write p.nameIndex), ("goal", write p.goal)]
  read? j := do
    let r ← j.record? ["name_index", "goal"]
    return { nameIndex := ← r.required "name_index", goal := ← r.required "goal" }

/-! ## Constraints and metric -/

namespace Constraint

mutual

/-- The document of a constraint. -/
def toJson : Constraint → Json
  | .and constraints => .record [("and", .array (listToJson constraints))]
  | .preference nameIndex constraint => .record
    [("preference",
      .record [("name_index", write nameIndex), ("constraint", constraint.toJson)])]
  | .goalPreference nameIndex goal =>
    .record [("goal_preference", .record [("name_index", write nameIndex), ("goal", write goal)])]
  | .temporal modality times goals => .record
    [("temporal",
      .record [("kind", write modality), ("time", write times), ("goals", write goals)])]

/-- The documents of a list of constraints. -/
def listToJson : List Constraint → List Json
  | [] => []
  | constraint :: rest => constraint.toJson :: listToJson rest

end

/-- Reads a constraint nested less than `fuel` deep. -/
def readWithin : Nat → Json → Option Constraint
  | 0, _ => none
  | fuel + 1, j => do
    let c ← j.choice?
    match c.name with
    | "and" => return .and (← c.contents? >>= Json.list? (readWithin fuel))
    | "preference" =>
      let r ← c.record? ["name_index", "constraint"]
      return .preference (← r.required "name_index")
        (← r.requiredBy "constraint" (readWithin fuel))
    | "goal_preference" =>
      let r ← c.record? ["name_index", "goal"]
      return .goalPreference (← r.required "name_index") (← r.required "goal")
    | "temporal" =>
      let r ← c.record? ["kind", "time", "goals"]
      return .temporal (← r.required "kind") (← r.required "time") (← r.required "goals")
    | _ => none

end Constraint

instance : Format Constraint := ⟨Constraint.toJson, fun j => Constraint.readWithin (j.depth + 1) j⟩

instance : Format Metric where
  write m := .record [("objective", write m.objective), ("expression", write m.expression)]
  read? j := do
    let r ← j.record? ["objective", "expression"]
    return { objective := ← r.required "objective", expression := ← r.required "expression" }

/-! ## Actions and tasks -/

/-- The members of the document of a cost. -/
def Cost.members (c : Cost Float) : List (String × Json) :=
  [("fixed_duration", write c.hasFixedDuration), ("fixed_duration_value", write c.durations),
    ("fixed_cost", write c.isFixed), ("fixed_cost_value", write c.value)]

/-- The document of an action. -/
def Action.toJson (a : Action) : Json := .record <|
  [("index", write a.index), ("name", write a.name), ("is_goal", write a.isGoal),
    ("duration", write a.durations), ("start_cond", write a.startConditions),
    ("over_cond", write a.invariants), ("end_cond", write a.endConditions),
    ("start_num_cond", write a.startNumericConditions),
    ("over_num_cond", write a.numericInvariants),
    ("end_num_cond", write a.endNumericConditions), ("start_eff", write a.startEffects),
    ("end_eff", write a.endEffects), ("start_num_eff", write a.startNumericEffects),
    ("end_num_eff", write a.endNumericEffects), ("preferences", write a.preferences)]
    ++ a.cost.members

/-- The document of pairs. -/
def pairsToJson (pairs : PairSet) : Json := write pairs.toList

/-- The document of actions by facts. -/
def ActionIndex.toJson (index : ActionIndex) : Json :=
  .record (index.toList.map fun entry => (toString entry.1, write entry.2))

/-- The document of a task. -/
def Task.toJson (t : Task) : Json := .record
  [("values", write t.values.entries), ("variables", write t.vars),
    ("numeric_variables", write t.numericVars),
    ("actions", .array (t.actions.toList.map Action.toJson)),
    ("goals", .array (t.goals.toList.map Action.toJson)),
    ("preference_names", write t.preferenceNames), ("constraints", write t.constraints),
    ("metric", write t.metric), ("mutex", pairsToJson t.mutex),
    ("permanent_mutex", pairsToJson t.permanentMutex),
    ("permanent_mutex_actions", pairsToJson t.permanentMutexActions),
    ("initial_state", write t.initialState),
    ("numeric_initial_state", write t.numericInitialState),
    ("requirers", t.requirers.toJson), ("producers", t.producers.toJson),
    ("actions_without_conditions", write t.unconditioned),
    ("metric_depends_on_duration", write t.metricDependsOnTime),
    ("variable_costs", write t.hasVariableCosts)]

end TemporalPlanning.FiniteDomain
