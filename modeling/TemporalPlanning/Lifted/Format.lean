import TemporalPlanning.Lifted.Basic
/-!
Document form of lifted tasks.

Every field is written. Lists, names, times and the metric may be left out of a document and are
then empty, zero or absent.
-/
set_option autoImplicit false

namespace TemporalPlanning

/-! ## Identifiers and keywords -/

instance : Format TypeId := ⟨fun i => Format.write i.index, fun j => (Format.read? j).map TypeId.mk⟩

instance : Format ObjectId :=
  ⟨fun i => Format.write i.index, fun j => (Format.read? j).map ObjectId.mk⟩

instance : Format FunctionId :=
  ⟨fun i => Format.write i.index, fun j => (Format.read? j).map FunctionId.mk⟩

instance : Format VarId := ⟨fun i => Format.write i.index, fun j => (Format.read? j).map VarId.mk⟩

instance : Format ValueId :=
  ⟨fun i => Format.write i.index, fun j => (Format.read? j).map ValueId.mk⟩

instance : Format TimePoint := ⟨fun t => .string t.name, Json.named? TimePoint.all TimePoint.name⟩

instance : Format Modality := ⟨fun m => .string m.name, Json.named? Modality.all Modality.name⟩

instance : Format Objective := ⟨fun o => .string o.name, Json.named? Objective.all Objective.name⟩

instance : Format Value where
  write
    | .object o => Json.chosen "object" o
    | .number x => Json.chosen "number" x
  read? j := do
    let c ← j.choice?
    match c.name with
    | "object" => return .object (← c.read?)
    | "number" => return .number (← c.read?)
    | _ => none

namespace Lifted

open Format

/-! ## Tables -/

instance : Format TypeEntry where
  write t := .record [("name", write t.name), ("parent_types", write t.parents)]
  read? j := do
    let r ← j.record? ["name", "parent_types"]
    return { name := ← r.required "name", parents := ← r.defaulted "parent_types" [] }

instance : Format ObjectEntry where
  write o := .record [("name", write o.name), ("types", write o.types)]
  read? j := do
    let r ← j.record? ["name", "types"]
    return { name := ← r.required "name", types := ← r.defaulted "types" [] }

instance : Format Parameter where
  write p := .record [("name", write p.name), ("types", write p.types)]
  read? j := do
    let r ← j.record? ["name", "types"]
    return { name := ← r.required "name", types := ← r.required "types" }

instance : Format FunctionEntry where
  write f := .record
    [("name", write f.name), ("parameters", write f.parameters), ("value_types", write f.valueTypes)]
  read? j := do
    let r ← j.record? ["name", "parameters", "value_types"]
    return {
      name := ← r.required "name"
      parameters := ← r.defaulted "parameters" []
      valueTypes := ← r.required "value_types" }

/-! ## Conditions and expressions -/

instance : Format Term where
  write
    | .param i => Json.chosen "param" i
    | .object o => Json.chosen "object" o
  read? j := do
    let c ← j.choice?
    match c.name with
    | "param" => return .param (← c.read?)
    | "object" => return .object (← c.read?)
    | _ => none

instance : Format Literal where
  write l := .record [("function", write l.function), ("params", write l.arguments)]
  read? j := do
    let r ← j.record? ["function", "params"]
    return { function := ← r.required "function", arguments := ← r.defaulted "params" [] }

instance : Format Quantity where
  write
    | .number x => Json.chosen "number" x
    | .term t => Json.chosen "term" t
    | .fluent l => Json.chosen "fluent" l
    | .duration => .string "duration"
    | .elapsed => .string "sharp_t"
  read? j := do
    let c ← j.choice?
    match c.name with
    | "number" => return .number (← c.read?)
    | "term" => return .term (← c.read?)
    | "fluent" => return .fluent (← c.read?)
    | "duration" => if c.isBare then return .duration else none
    | "sharp_t" => if c.isBare then return .elapsed else none
    | _ => none

namespace Goal

mutual

/-- The document of a goal. -/
def toJson : Goal → Json
  | .literal l => Json.chosen "literal" l
  | .negLiteral l => Json.chosen "neg_literal" l
  | .and goals => .record [("and", .array (listToJson goals))]
  | .or goals => .record [("or", .array (listToJson goals))]
  | .not goal => .record [("not", goal.toJson)]
  | .imply premise conclusion =>
    .record [("imply", .array [premise.toJson, conclusion.toJson])]
  | .existential parameters goal =>
    .record [("exists", .record [("parameters", write parameters), ("goal", goal.toJson)])]
  | .universal parameters goal =>
    .record [("forall", .record [("parameters", write parameters), ("goal", goal.toJson)])]
  | .compare comparator left right => .record
    [("compare",
      .record [("comparator", write comparator), ("left", write left), ("right", write right)])]
  | .equality left right =>
    .record [("equality", .record [("left", write left), ("right", write right)])]
  | .inequality left right =>
    .record [("inequality", .record [("left", write left), ("right", write right)])]
  | .timed time goal => .record [("at", .record [("time", write time), ("goal", goal.toJson)])]

/-- The documents of a list of goals. -/
def listToJson : List Goal → List Json
  | [] => []
  | goal :: rest => goal.toJson :: listToJson rest

end

/-- Reads a goal nested less than `fuel` deep. -/
def readWithin : Nat → Json → Option Goal
  | 0, _ => none
  | fuel + 1, j => do
    let c ← j.choice?
    match c.name with
    | "literal" => return .literal (← c.read?)
    | "neg_literal" => return .negLiteral (← c.read?)
    | "and" => return .and (← c.contents? >>= Json.list? (readWithin fuel))
    | "or" => return .or (← c.contents? >>= Json.list? (readWithin fuel))
    | "not" => return .not (← c.contents? >>= readWithin fuel)
    | "imply" =>
      match c.contents? with
      | some (.array [premise, conclusion]) =>
        return .imply (← readWithin fuel premise) (← readWithin fuel conclusion)
      | _ => none
    | "exists" =>
      let r ← c.record? ["parameters", "goal"]
      return .existential (← r.required "parameters") (← r.requiredBy "goal" (readWithin fuel))
    | "forall" =>
      let r ← c.record? ["parameters", "goal"]
      return .universal (← r.required "parameters") (← r.requiredBy "goal" (readWithin fuel))
    | "compare" =>
      let r ← c.record? ["comparator", "left", "right"]
      return .compare (← r.required "comparator") (← r.required "left") (← r.required "right")
    | "equality" =>
      let r ← c.record? ["left", "right"]
      return .equality (← r.required "left") (← r.required "right")
    | "inequality" =>
      let r ← c.record? ["left", "right"]
      return .inequality (← r.required "left") (← r.required "right")
    | "at" =>
      let r ← c.record? ["time", "goal"]
      return .timed (← r.required "time") (← r.requiredBy "goal" (readWithin fuel))
    | _ => none

end Goal

instance : Format Goal := ⟨Goal.toJson, fun j => Goal.readWithin (j.depth + 1) j⟩

namespace Constraint

mutual

/-- The document of a constraint. -/
def toJson : Constraint → Json
  | .and constraints => .record [("and", .array (listToJson constraints))]
  | .universal parameters constraint => .record
    [("forall",
      .record [("parameters", write parameters), ("constraint", constraint.toJson)])]
  | .preference name constraint =>
    .record [("preference", .record [("name", write name), ("constraint", constraint.toJson)])]
  | .goalPreference name goal =>
    .record [("goal_preference", .record [("name", write name), ("goal", write goal)])]
  | .temporal modality times goals => .record
    [("temporal",
      .record [("kind", write modality), ("time", write times), ("goals", write goals)])]

/-- The documents of a list of constraints. -/
def listToJson : List Constraint → List Json
  | [] => []
  | constraint :: rest => constraint.toJson :: listToJson rest

end

/-- Reads a constraint nested less than `fuel` deep. -/
def readWithin : Nat → Json → Option Constraint
  | 0, _ => none
  | fuel + 1, j => do
    let c ← j.choice?
    match c.name with
    | "and" => return .and (← c.contents? >>= Json.list? (readWithin fuel))
    | "forall" =>
      let r ← c.record? ["parameters", "constraint"]
      return .universal (← r.required "parameters")
        (← r.requiredBy "constraint" (readWithin fuel))
    | "preference" =>
      let r ← c.record? ["name", "constraint"]
      return .preference (← r.required "name") (← r.requiredBy "constraint" (readWithin fuel))
    | "goal_preference" =>
      let r ← c.record? ["name", "goal"]
      return .goalPreference (← r.required "name") (← r.required "goal")
    | "temporal" =>
      let r ← c.record? ["kind", "time", "goals"]
      return .temporal (← r.required "kind") (← r.defaulted "time" []) (← r.required "goals")
    | _ => none

end Constraint

instance : Format Constraint := ⟨Constraint.toJson, fun j => Constraint.readWithin (j.depth + 1) j⟩

instance : Format Measure where
  write
    | .number x => Json.chosen "number" x
    | .totalTime => .string "total_time"
    | .isViolated name => Json.chosen "is_violated" name
    | .fluent function arguments => .record
      [("fluent", .record [("function", write function), ("parameters", write arguments)])]
  read? j := do
    let c ← j.choice?
    match c.name with
    | "number" => return .number (← c.read?)
    | "total_time" => if c.isBare then return .totalTime else none
    | "is_violated" => return .isViolated (← c.read?)
    | "fluent" =>
      let r ← c.record? ["function", "parameters"]
      return .fluent (← r.required "function") (← r.defaulted "parameters" [])
    | _ => none

instance : Format Metric where
  write m := .record [("objective", write m.objective), ("expression", write m.expression)]
  read? j := do
    let r ← j.record? ["objective", "expression"]
    return { objective := ← r.required "objective", expression := ← r.required "expression" }

/-! ## Tasks and operators -/

instance : Format Fact where
  write f := .record
    [("function", write f.function), ("parameters", write f.arguments), ("value", write f.value),
      ("time", write f.time)]
  read? j := do
    let r ← j.record? ["function", "parameters", "value", "time"]
    return {
      function := ← r.required "function"
      arguments := ← r.defaulted "parameters" []
      value := ← r.required "value"
      time := ← r.defaulted "time" 0.0 }

instance : Format Task where
  write t := .record
    [("domain_name", write t.domainName), ("problem_name", write t.problemName),
      ("types", write t.types), ("objects", write t.objects), ("functions", write t.functions),
      ("init", write t.init), ("constraints", write t.constraints), ("metric", write t.metric)]
  read? j := do
    let r ← j.record?
      ["domain_name", "problem_name", "types", "objects", "functions", "init", "constraints",
        "metric"]
    return {
      domainName := ← r.defaulted "domain_name" ""
      problemName := ← r.defaulted "problem_name" ""
      types := ← r.required "types"
      objects := ← r.required "objects"
      functions := ← r.required "functions"
      init := ← r.defaulted "init" []
      constraints := ← r.defaulted "constraints" []
      metric := ← r.defaulted "metric" none }

instance : Format Fluent where
  write f := .record [("variable", write f.literal), ("value", write f.value)]
  read? j := do
    let r ← j.record? ["variable", "value"]
    return { literal := ← r.required "variable", value := ← r.required "value" }

instance : Format NumericCondition where
  write c := .record [("comparator", write c.comparator), ("operands", write c.operands)]
  read? j := do
    let r ← j.record? ["comparator", "operands"]
    return { comparator := ← r.required "comparator", operands := ← r.required "operands" }

instance : Format NumericEffect where
  write e := .record
    [("assignment", write e.assignment), ("fluent", write e.fluent), ("exp", write e.expression)]
  read? j := do
    let r ← j.record? ["assignment", "fluent", "exp"]
    return {
      assignment := ← r.required "assignment"
      fluent := ← r.required "fluent"
      expression := ← r.required "exp" }

instance : Format Happening where
  write h := .record
    [("prec", write h.conditions), ("numeric_prec", write h.numericConditions),
      ("eff", write h.effects), ("numeric_eff", write h.numericEffects)]
  read? j := do
    let r ← j.record? ["prec", "numeric_prec", "eff", "numeric_eff"]
    return {
      conditions := ← r.defaulted "prec" []
      numericConditions := ← r.defaulted "numeric_prec" []
      effects := ← r.defaulted "eff" []
      numericEffects := ← r.defaulted "numeric_eff" [] }

instance : Format DurationBound where
  write d := .record
    [("time", write d.time), ("comparator", write d.comparator), ("exp", write d.expression)]
  read? j := do
    let r ← j.record? ["time", "comparator", "exp"]
    return {
      time := ← r.defaulted "time" .unspecified
      comparator := ← r.required "comparator"
      expression := ← r.required "exp" }

instance : Format Identity where
  write i := .record [("equal", write i.equal), ("left", write i.left), ("right", write i.right)]
  read? j := do
    let r ← j.record? ["equal", "left", "right"]
    return {
      equal := ← r.required "equal"
      left := ← r.required "left"
      right := ← r.required "right" }

instance : Format Preference where
  write p := .record [("name", write p.name), ("preference", write p.goal)]
  read? j := do
    let r ← j.record? ["name", "preference"]
    return { name := ← r.required "name", goal := ← r.required "preference" }

instance : Format Operator where
  write o := .record
    [("name", write o.name), ("parameters", write o.parameters), ("duration", write o.durations),
      ("at_start", write o.atStart), ("at_end", write o.atEnd),
      ("over_all_prec", write o.invariants),
      ("over_all_numeric_prec", write o.numericInvariants), ("equality", write o.identities),
      ("preferences", write o.preferences), ("is_goal", write o.isGoal)]
  read? j := do
    let r ← j.record?
      ["name", "parameters", "duration", "at_start", "at_end", "over_all_prec",
        "over_all_numeric_prec", "equality", "preferences", "is_goal"]
    return {
      name := ← r.required "name"
      parameters := ← r.defaulted "parameters" []
      durations := ← r.defaulted "duration" []
      atStart := ← r.defaulted "at_start" .empty
      atEnd := ← r.defaulted "at_end" .empty
      invariants := ← r.defaulted "over_all_prec" []
      numericInvariants := ← r.defaulted "over_all_numeric_prec" []
      identities := ← r.defaulted "equality" []
      preferences := ← r.defaulted "preferences" []
      isGoal := ← r.defaulted "is_goal" false }

instance : Format Problem where
  write p := .record [("task", write p.task), ("operators", write p.operators)]
  read? j := do
    let r ← j.record? ["task", "operators"]
    return { task := ← r.required "task", operators := ← r.required "operators" }

end Lifted

end TemporalPlanning
