import TemporalPlanning.Lifted.Format
import TemporalPlanning.Grounded.Basic
/-!
Document form of grounded tasks.

Every field is written and must be given when a document is read; only the metric may be absent.
The reached values of a variable are an object from object positions to levels.
-/
set_option autoImplicit false

namespace TemporalPlanning.Grounded

open Format

/-! ## Variables, conditions and effects -/

/-- The document of reached values. -/
def reachedToJson (reached : List (ObjectId × Nat)) : Json :=
  .record (reached.map fun entry => (toString entry.1.index, write entry.2))

/-- Reads reached values. -/
def reached? : Json → Option (List (ObjectId × Nat))
  | .object members => do
    let entries ← members.mapM fun (name, level) => do
      return (ObjectId.mk (← name.index?), ← Json.natBelow? Json.levelLimit level)
    return entries.foldl (fun reached entry => setLevel entry.1 entry.2 reached) []
  | _ => none

instance : Format Variable where
  write v := .record
    [("index", write v.index), ("function", write v.function), ("params", write v.arguments),
      ("is_numeric", write v.isNumeric), ("reached_values", reachedToJson v.reached),
      ("initial_values", write v.initialValues)]
  read? j := do
    let r ← j.record?
      ["index", "function", "params", "is_numeric", "reached_values", "initial_values"]
    return {
      index := ← r.required "index"
      function := ← r.required "function"
      arguments := ← r.required "params"
      isNumeric := ← r.required "is_numeric"
      reached := ← r.requiredBy "reached_values" reached?
      initialValues := ← r.required "initial_values" }

instance : Format Condition where
  write c := .record [("var", write c.var), ("value", write c.value)]
  read? j := do
    let r ← j.record? ["var", "value"]
    return { var := ← r.required "var", value := ← r.required "value" }

instance : Format Quantity where
  write
    | .number x => Json.chosen "number" x
    | .var v => Json.chosen "var" v
    | .object o => Json.chosen "object" o
    | .duration => .string "duration"
    | .elapsed => .string "sharp_t"
  read? j := do
    let c ← j.choice?
    match c.name with
    | "number" => return .number (← c.read?)
    | "var" => return .var (← c.read?)
    | "object" => return .object (← c.read?)
    | "duration" => if c.isBare then return .duration else none
    | "sharp_t" => if c.isBare then return .elapsed else none
    | _ => none

instance : Format NumericCondition where
  write c := .record [("comparator", write c.comparator), ("terms", write c.terms)]
  read? j := do
    let r ← j.record? ["comparator", "terms"]
    return { comparator := ← r.required "comparator", terms := ← r.required "terms" }

instance : Format NumericEffect where
  write e := .record
    [("assignment", write e.assignment), ("var", write e.var), ("exp", write e.expression)]
  read? j := do
    let r ← j.record? ["assignment", "var", "exp"]
    return {
      assignment := ← r.required "assignment"
      var := ← r.required "var"
      expression := ← r.required "exp" }

instance : Format DurationBound where
  write d := .record
    [("time", write d.time), ("comparator", write d.comparator), ("exp", write d.expression)]
  read? j := do
    let r ← j.record? ["time", "comparator", "exp"]
    return {
      time := ← r.required "time"
      comparator := ← r.required "comparator"
      expression := ← r.required "exp" }

/-! ## Goals -/

instance : Format PartialTerm where
  write
    | .object o => Json.chosen "object" o
    | .quantified i => Json.chosen "quantified" i
  read? j := do
    let c ← j.choice?
    match c.name with
    | "object" => return .object (← c.read?)
    | "quantified" => return .quantified (← c.read?)
    | _ => none

instance : Format PartialQuantity where
  write
    | .number x => Json.chosen "number" x
    | .var v => Json.chosen "var" v
    | .ungrounded function arguments => .record
      [("ungrounded_var", .record [("function", write function), ("params", write arguments)])]
    | .term t => Json.chosen "term" t
  read? j := do
    let c ← j.choice?
    match c.name with
    | "number" => return .number (← c.read?)
    | "var" => return .var (← c.read?)
    | "ungrounded_var" =>
      let r ← c.record? ["function", "params"]
      return .ungrounded (← r.required "function") (← r.required "params")
    | "term" => return .term (← c.read?)
    | _ => none

namespace Goal

mutual

/-- The document of a goal. -/
def toJson : Goal → Json
  | .fluent var value equal => .record
    [("fluent", .record [("var", write var), ("value", write value), ("equal", write equal)])]
  | .ungroundedFluent function arguments value equal => .record
    [("ungrounded_fluent",
      .record
        [("function", write function), ("params", write arguments), ("value", write value),
          ("equal", write equal)])]
  | .and goals => .record [("and", .array (listToJson goals))]
  | .or goals => .record [("or", .array (listToJson goals))]
  | .not goal => .record [("not", goal.toJson)]
  | .imply premise conclusion =>
    .record [("imply", .array [premise.toJson, conclusion.toJson])]
  | .existential types goal =>
    .record [("exists", .record [("types", write types), ("goal", goal.toJson)])]
  | .universal types goal =>
    .record [("forall", .record [("types", write types), ("goal", goal.toJson)])]
  | .equality equal left right => .record
    [("equality",
      .record [("equal", write equal), ("left", write left), ("right", write right)])]
  | .compare comparator terms =>
    .record [("compare", .record [("comparator", write comparator), ("terms", write terms)])]
  | .timed time goal => .record [("at", .record [("time", write time), ("goal", goal.toJson)])]
  | .constant holds => Json.chosen "constant" holds

/-- The documents of a list of goals. -/
def listToJson : List Goal → List Json
  | [] => []
  | goal :: rest => goal.toJson :: listToJson rest

end

/-- Reads a goal nested less than `fuel` deep. -/
def readWithin : Nat → Json → Option Goal
  | 0, _ => none
  | fuel + 1, j => do
    let c ← j.choice?
    match c.name with
    | "fluent" =>
      let r ← c.record? ["var", "value", "equal"]
      return .fluent (← r.required "var") (← r.required "value") (← r.required "equal")
    | "ungrounded_fluent" =>
      let r ← c.record? ["function", "params", "value", "equal"]
      return .ungroundedFluent (← r.required "function") (← r.required "params")
        (← r.required "value") (← r.required "equal")
    | "and" => return .and (← c.contents? >>= Json.list? (readWithin fuel))
    | "or" => return .or (← c.contents? >>= Json.list? (readWithin fuel))
    | "not" => return .not (← c.contents? >>= readWithin fuel)
    | "imply" =>
      match c.contents? with
      | some (.array [premise, conclusion]) =>
        return .imply (← readWithin fuel premise) (← readWithin fuel conclusion)
      | _ => none
    | "exists" =>
      let r ← c.record? ["types", "goal"]
      return .existential (← r.required "types") (← r.requiredBy "goal" (readWithin fuel))
    | "forall" =>
      let r ← c.record? ["types", "goal"]
      return .universal (← r.required "types") (← r.requiredBy "goal" (readWithin fuel))
    | "equality" =>
      let r ← c.record? ["equal", "left", "right"]
      return .equality (← r.required "equal") (← r.required "left") (← r.required "right")
    | "compare" =>
      let r ← c.record? ["comparator", "terms"]
      return .compare (← r.required "comparator") (← r.required "terms")
    | "at" =>
      let r ← c.record? ["time", "goal"]
      return .timed (← r.required "time") (← r.requiredBy "goal" (readWithin fuel))
    | "constant" => return .constant (← c.read?)
    | _ => none

end Goal

instance : Format Goal := ⟨Goal.toJson, fun j => Goal.readWithin (j.depth + 1) j⟩

/-- A soft goal is written with the position of its name. -/
instance : Format Preference where
  write p := .record [("name_index", write p.nameIndex), ("goal", write p.goal)]
  read? j := do
    let r ← j.record? ["name_index", "goal"]
    return { nameIndex := ← r.required "name_index", goal := ← r.required "goal" }

/-! ## Actions -/

instance : Format Action where
  write a := .record
    [("index", write a.index), ("name", write a.name), ("operator", write a.operator),
      ("parameters", write a.arguments), ("duration", write a.durations),
      ("start_cond", write a.startConditions), ("over_cond", write a.invariants),
      ("end_cond", write a.endConditions), ("start_num_cond", write a.startNumericConditions),
      ("over_num_cond", write a.numericInvariants),
      ("end_num_cond", write a.endNumericConditions), ("start_eff", write a.startEffects),
      ("end_eff", write a.endEffects), ("start_num_eff", write a.startNumericEffects),
      ("end_num_eff", write a.endNumericEffects), ("preferences", write a.preferences),
      ("is_goal", write a.isGoal)]
  read? j := do
    let r ← j.record?
      ["index", "name", "operator", "parameters", "duration", "start_cond", "over_cond",
        "end_cond", "start_num_cond", "over_num_cond", "end_num_cond", "start_eff", "end_eff",
        "start_num_eff", "end_num_eff", "preferences", "is_goal"]
    return {
      index := ← r.required "index"
      name := ← r.required "name"
      operator := ← r.required "operator"
      arguments := ← r.required "parameters"
      durations := ← r.required "duration"
      startConditions := ← r.required "start_cond"
      invariants := ← r.required "over_cond"
      endConditions := ← r.required "end_cond"
      startNumericConditions := ← r.required "start_num_cond"
      numericInvariants := ← r.required "over_num_cond"
      endNumericConditions := ← r.required "end_num_cond"
      startEffects := ← r.required "start_eff"
      endEffects := ← r.required "end_eff"
      startNumericEffects := ← r.required "start_num_eff"
      endNumericEffects := ← r.required "end_num_eff"
      preferences := ← r.required "preferences"
      isGoal := ← r.required "is_goal" }

/-! ## Constraints, metric and statistics -/

namespace Constraint

mutual

/-- The document of a constraint. -/
def toJson : Constraint → Json
  | .and constraints => .record [("and", .array (listToJson constraints))]
  | .preference nameIndex constraint => .record
    [("preference",
      .record [("name_index", write nameIndex), ("constraint", constraint.toJson)])]
  | .goalPreference nameIndex goal => .record
    [("goal_preference", .record [("name_index", write nameIndex), ("goal", write goal)])]
  | .temporal modality times goals => .record
    [("temporal",
      .record [("kind", write modality), ("time", write times), ("goals", write goals)])]

/-- The documents of a list of constraints. -/
def listToJson : List Constraint → List Json
  | [] => []
  | constraint :: rest => constraint.toJson :: listToJson rest

end

/-- Reads a constraint nested less than `fuel` deep. -/
def readWithin : Nat → Json → Option Constraint
  | 0, _ => none
  | fuel + 1, j => do
    let c ← j.choice?
    match c.name with
    | "and" => return .and (← c.contents? >>= Json.list? (readWithin fuel))
    | "preference" =>
      let r ← c.record? ["name_index", "constraint"]
      return .preference (← r.required "name_index")
        (← r.requiredBy "constraint" (readWithin fuel))
    | "goal_preference" =>
      let r ← c.record? ["name_index", "goal"]
      return .goalPreference (← r.required "name_index") (← r.required "goal")
    | "temporal" =>
      let r ← c.record? ["kind", "time", "goals"]
      return .temporal (← r.required "kind") (← r.required "time") (← r.required "goals")
    | _ => none

end Constraint

instance : Format Constraint := ⟨Constraint.toJson, fun j => Constraint.readWithin (j.depth + 1) j⟩

instance : Format Measure where
  write
    | .number x => Json.chosen "number" x
    | .totalTime => .string "total_time"
    | .isViolated i => Json.chosen "is_violated" i
    | .var v => Json.chosen "var" v
  read? j := do
    let c ← j.choice?
    match c.name with
    | "number" => return .number (← c.read?)
    | "total_time" => if c.isBare then return .totalTime else none
    | "is_violated" => return .isViolated (← c.read?)
    | "var" => return .var (← c.read?)
    | _ => none

instance : Format Metric where
  write m := .record [("objective", write m.objective), ("expression", write m.expression)]
  read? j := do
    let r ← j.record? ["objective", "expression"]
    return { objective := ← r.required "objective", expression := ← r.required "expression" }

instance : Format LevelStats where
  write l := .record
    [("level", write l.level), ("new_values", write l.newValues),
      ("new_actions", write l.newActions), ("variables", write l.vars)]
  read? j := do
    let r ← j.record? ["level", "new_values", "new_actions", "variables"]
    return {
      level := ← r.requiredBy "level" (Json.natBelow? Json.levelLimit)
      newValues := ← r.required "new_values"
      newActions := ← r.required "new_actions"
      vars := ← r.required "variables" }

instance : Format Stats where
  write s := .record
    [("levels", write s.levels), ("static_variables", write s.staticVariables),
      ("dropped_actions", write s.droppedActions)]
  read? j := do
    let r ← j.record? ["levels", "static_variables", "dropped_actions"]
    return {
      levels := ← r.required "levels"
      staticVariables := ← r.required "static_variables"
      droppedActions := ← r.required "dropped_actions" }

namespace Task

/-- The members of a task document apart from the lifted task. -/
def resultMembers (t : Task) : List (String × Json) :=
  [("variables", write t.vars), ("actions", write t.actions), ("goals", write t.goals),
    ("preference_names", write t.preferenceNames), ("constraints", write t.constraints),
    ("metric", write t.metric), ("stats", write t.stats)]

end Task

instance : Format Task where
  write t := .record (("task", write t.task) :: t.resultMembers)
  read? j := do
    let r ← j.record?
      ["task", "variables", "actions", "goals", "preference_names", "constraints", "metric",
        "stats"]
    return {
      task := ← r.required "task"
      vars := ← r.required "variables"
      actions := ← r.required "actions"
      goals := ← r.required "goals"
      preferenceNames := ← r.required "preference_names"
      constraints := ← r.required "constraints"
      metric := ← r.optional "metric"
      stats := ← r.required "stats" }

end TemporalPlanning.Grounded
