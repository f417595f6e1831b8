import TemporalPlanning.Grounded.Form
/-!
Text of grounded tasks.

Variables are listed with the values they can take and the level at which each is reached first,
actions and goals with their bounds, conditions, effects and preferences, one per line.
-/
set_option autoImplicit false

namespace TemporalPlanning.Grounded

namespace Stats

/-- The statistics as a table of levels followed by two totals. -/
def text (s : Stats) : String :=
  Text.lines <|
    ["level new_values new_actions variables"]
      ++ s.levels.map (fun l =>
        toString l.level ++ " " ++ toString l.newValues ++ " " ++ toString l.newActions ++ " "
          ++ toString l.vars)
      ++ ["static variables: " ++ toString s.staticVariables,
        "dropped actions: " ++ toString s.droppedActions]

end Stats

namespace Task

variable (t : Task)

/-- A variable with its reached values, or marked as numeric. -/
def variableLine (v : Variable) : String :=
  toString v.index.index ++ ": " ++ t.varName v.index
    ++ if v.isNumeric then " numeric"
      else
        let values := v.reached.map fun (value, level) =>
          t.task.objectName value ++ "@" ++ toString level
        " \x7b" ++ Form.separated values ++ "\x7d"

def conditionLine (label : String) (c : Condition) : String :=
  "  " ++ label ++ ": " ++ t.varName c.var ++ " = " ++ t.task.objectName c.value

/-- The lines of an action. -/
def actionLines (a : Action) : List String :=
  [toString a.index ++ ": " ++ a.name]
    ++ a.durations.map (fun d =>
      "  duration: " ++ d.time.keyword ++ " " ++ d.comparator.symbol ++ " "
        ++ d.expression.form Quantity.form)
    ++ a.startConditions.map (t.conditionLine "at start")
    ++ a.invariants.map (t.conditionLine "over all")
    ++ a.endConditions.map (t.conditionLine "at end")
    ++ a.numericConditions.map (fun c =>
      "  numeric: " ++ c.comparator.symbol ++ " "
        ++ Form.list (c.terms.map (Expression.form Quantity.form)))
    ++ a.startEffects.map (t.conditionLine "start effect")
    ++ a.endEffects.map (t.conditionLine "end effect")
    ++ a.numericEffects.map (fun e =>
      "  " ++ e.assignment.keyword ++ " " ++ t.varName e.var ++ " "
        ++ e.expression.form Quantity.form)
    ++ a.preferences.map (fun p => "  preference " ++ t.preferenceNames.getD p.nameIndex "?")

/-- The task as a text. -/
def text : String :=
  Text.lines <|
    ["variables: " ++ toString t.vars.size]
      ++ t.vars.toList.map t.variableLine
      ++ ["actions: " ++ toString t.actions.length]
      ++ t.actions.flatMap t.actionLines
      ++ ["goals: " ++ toString t.goals.length]
      ++ t.goals.flatMap t.actionLines
      ++ (if t.preferenceNames.isEmpty then []
        else ["preferences: " ++ " ".intercalate t.preferenceNames])
      ++ ["constraints: " ++ toString t.constraints.length]
      ++ (match t.metric with
        | some m => ["metric: " ++ m.objective.name ++ " " ++ m.expression.form Measure.form]
        | none => [])

end Task

end TemporalPlanning.Grounded
