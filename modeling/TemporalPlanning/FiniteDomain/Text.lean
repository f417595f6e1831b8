import TemporalPlanning.FiniteDomain.Basic
/-!
Text of finite-domain tasks.

The values, the variables with their domains and the initial state are listed first, then actions
and goals, constraints and the metric. Expressions, goals and facts are parenthesised lists.
-/
set_option autoImplicit false

namespace TemporalPlanning.FiniteDomain

open Text

/-- A number, as short as it can be read back. -/
def numberText (x : Float) : String := Decimal.render Decimal.plain x

namespace Task

variable (t : Task)

/-! ## Facts, expressions and goals -/

/-- A variable has a value. -/
def factText (var : Nat) (value : ValueId) : String :=
  parenthesised ["=", t.varName var, t.valueName value]

def quantityText : Quantity → String
  | .number x => numberText x
  | .var v => t.numericName v
  | .duration => "?duration"
  | .elapsed => "#t"

def expressionText (e : Expression Quantity) : String := e.text t.quantityText

def comparisonText (comparator : Comparator) (terms : List (Expression Quantity)) : String :=
  parenthesised (comparator.symbol :: terms.map t.expressionText)

mutual

def goalText : Goal → String
  | .fact var value => t.factText var value
  | .constant holds => Form.bool holds
  | .and goals => parenthesised ("and" :: goalTexts goals)
  | .or goals => parenthesised ("or" :: goalTexts goals)
  | .not goal => parenthesised ["not", goalText goal]
  | .compare comparator terms => t.comparisonText comparator terms
  | .timed time goal => parenthesised [time.keyword, goalText goal]

def goalTexts : List Goal → List String
  | [] => []
  | goal :: rest => goalText goal :: goalTexts rest

end

mutual

def constraintText : Constraint → String
  | .and constraints => parenthesised ("and" :: constraintTexts constraints)
  | .preference nameIndex constraint =>
    parenthesised ["preference", t.preferenceName nameIndex, constraintText constraint]
  | .goalPreference nameIndex goal =>
    parenthesised ["preference", t.preferenceName nameIndex, t.goalText goal]
  | .temporal modality times goals =>
    parenthesised (modality.keyword :: (times.map numberText ++ goals.map t.goalText))

def constraintTexts : List Constraint → List String
  | [] => []
  | constraint :: rest => constraintText constraint :: constraintTexts rest

end

def measureText : Measure → String
  | .number x => numberText x
  | .totalTime => "total-time"
  | .isViolated i => parenthesised ["is-violated", t.preferenceName i]
  | .var v => t.numericName v

/-! ## Actions -/

/-- A bound on the duration, after the time point it refers to. -/
def durationText (d : DurationBound) : String :=
  let bound := parenthesised [d.comparator.symbol, "?duration", t.expressionText d.expression]
  if d.time = .unspecified then bound else d.time.keyword ++ " " ++ bound

def numericEffectText (e : NumericEffect) : String :=
  parenthesised [e.assignment.keyword, t.numericName e.var, t.expressionText e.expression]

/-- The lines of the conditions at a time point. -/
def conditionLines (time : TimePoint) (conditions : List Condition)
    (numericConditions : List NumericCondition) : List String :=
  (conditions.map (fun c => t.factText c.var c.value)
      ++ numericConditions.map fun c => t.comparisonText c.comparator c.terms).map
    fun text => " :con " ++ parenthesised [time.keyword, text]

/-- The lines of the effects at a time point. -/
def effectLines (time : TimePoint) (effects : List Condition)
    (numericEffects : List NumericEffect) : List String :=
  (effects.map (fun e => t.factText e.var e.value) ++ numericEffects.map t.numericEffectText).map
    fun text => " :eff " ++ parenthesised [time.keyword, text]

def preferenceLine (p : Preference) : String :=
  " :con " ++ parenthesised ["preference", t.preferenceName p.nameIndex, t.goalText p.goal]

/-- The lines of an action. -/
def actionLines (a : Action) : List String :=
  ["ACTION " ++ a.name]
    ++ a.durations.map (fun d => " :duration " ++ t.durationText d)
    ++ t.conditionLines .atStart a.startConditions a.startNumericConditions
    ++ t.conditionLines .overAll a.invariants a.numericInvariants
    ++ t.conditionLines .atEnd a.endConditions a.endNumericConditions
    ++ a.preferences.map t.preferenceLine
    ++ t.effectLines .atStart a.startEffects a.startNumericEffects
    ++ t.effectLines .atEnd a.endEffects a.endNumericEffects

/-! ## The task -/

/-- An entry of a table with its position. -/
def entryLine (index : Nat) (name : String) : String := toString index ++ ":" ++ name

/-- A variable, followed by its values. -/
def variableLines (v : Variable) : List String :=
  entryLine v.index v.name :: v.domain.map fun value => "* " ++ t.valueName value

/-- The initial values of a variable in one line. -/
def initialLine {α : Type} (text : α → String) (name : String) (initialValues : List (Float × α)) :
    String :=
  if initialValues.isEmpty then "Uninitialized: " ++ name
  else
    " ".intercalate <| initialValues.map fun (time, value) =>
      parenthesised ["at", numberText time, parenthesised ["=", name, text value]]

/-- The heading of the metric. -/
def objectiveText : Objective → String
  | .minimize => "MINIMIZE"
  | .maximize => "MAXIMIZE"

/-- The task as a text. -/
def text : String :=
  lines <|
    ["OBJECTS:"]
      ++ t.values.entries.toList.map (fun v => entryLine v.index.index v.name)
      ++ ["VARIABLES:"]
      ++ t.vars.toList.flatMap t.variableLines
      ++ t.numericVars.toList.map (fun v => entryLine v.index v.name)
      ++ ["INITIAL STATE:"]
      ++ t.vars.toList.map (fun v => initialLine t.valueName v.name v.initialValues)
      ++ t.numericVars.toList.map (fun v => initialLine numberText v.name v.initialValues)
      ++ t.actions.toList.flatMap t.actionLines
      ++ t.goals.toList.flatMap t.actionLines
      ++ ["CONSTRAINTS:"]
      ++ t.constraints.map t.constraintText
      ++ (match t.metric with
        | some m =>
          ["METRIC:", objectiveText m.objective ++ " " ++ m.expression.text t.measureText]
        | none => [])

end Task

end TemporalPlanning.FiniteDomain
