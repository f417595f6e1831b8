import TemporalPlanning.Grounded.Evaluation
import TemporalPlanning.Grounding.Saturation
import TemporalPlanning.Lifted.Validation
/-!
Removal of variables that no action changes, and grounding as a whole.

A variable that no action writes keeps its initial value: satisfied conditions on it are erased,
actions with violated ones are dropped, and expressions that read it become constants. A
proposition without a fact is false; any other variable without a fact has no value, and whatever
refers to it is dropped. A variable with several facts, or with a fact at a positive time, changes
by itself. The variables that remain are renumbered, the non-numeric ones first. As dropping
actions can make further variables static, passes are repeated until one removes nothing.

A validated problem is saturated, static variables are removed unless they are to be kept, numeric
conditions between numbers are decided, and every remaining variable receives its initial values.
-/
set_option autoImplicit false

namespace TemporalPlanning.Grounding

open Grounded

/-! ## Which variables change -/

/-- What is known about the value of a variable throughout every plan. -/
inductive Constancy where
  | changing
  | undefined
  | fixed (value : Value)
deriving DecidableEq

/-- The facts about a variable in the order of the initial state. -/
def factsOf (task : Lifted.Task) (v : Variable) : List Lifted.Fact :=
  task.init.filter fun fact => fact.function == v.function && fact.arguments == v.arguments

/-- The constancy of a variable, given whether an action writes it. -/
def constancyOf (task : Lifted.Task) (written : Bool) (v : Variable) : Constancy :=
  if written then .changing
  else
    match factsOf task v with
    | [] => if task.isPredicate v.function then .fixed (.object .falsity) else .undefined
    | [fact] => if fact.time ≤ 0.0 then .fixed fact.value else .changing
    | _ => .changing

/-- Marks a variable. -/
def mark (marks : Array Bool) (var : VarId) : Array Bool := marks.setIfInBounds var.index true

/-- For every variable, whether an action writes it. -/
def writtenVariables (t : Task) : Array Bool :=
  t.actions.foldl
    (fun marks action =>
      (action.effects.map (·.var) ++ action.numericEffects.map (·.var)).foldl mark marks)
    (Array.replicate t.vars.size false)

/-- The constancy of every variable. -/
def constancies (t : Task) : Array Constancy :=
  let written := writtenVariables t
  t.vars.mapIdx fun i v => constancyOf t.task (written.getD i false) v

/-! ## What becomes of a variable -/

/-- What stands for a variable after the removal. -/
inductive Replacement where
  /-- The variable remains under a new number. -/
  | renumbered (var : VarId)
  /-- The variable always has this value. -/
  | fixed (value : Value)
  /-- The variable has no value. -/
  | missing
deriving DecidableEq, Inhabited

/-- The old positions of the remaining variables in their new order: those that are not numeric
before those that are. -/
def remaining (vars : Array Variable) (constancies : Array Constancy) : List Nat :=
  let changing := (vars.toList.zip constancies.toList).zipIdx.filter fun entry =>
    entry.1.2 = .changing
  ((changing.filter fun entry => !entry.1.1.isNumeric)
    ++ changing.filter fun entry => entry.1.1.isNumeric).map Prod.snd

/-- What stands for every variable. -/
def replacements (constancies : Array Constancy) (remaining : List Nat) : Array Replacement :=
  let unchanging := constancies.map fun
    | .fixed value => .fixed value
    | .changing | .undefined => Replacement.missing
  remaining.zipIdx.foldl
    (fun replaced (old, new) => replaced.setIfInBounds old (.renumbered ⟨new⟩)) unchanging

/-! ## Substitution

Each function puts the replacements of variables into a construct. A result that does not exist
means that whatever contains the construct is dropped. -/

/-- What is left of a construct, if anything is. -/
abbrev Residue := OptionT (Except Error)

variable (replaced : Array Replacement)

/-- What stands for a variable. -/
def lookup (var : VarId) : Replacement := replaced.getD var.index .missing

/-- An operation on numbers only is replaced by its value. -/
def foldConstants (op : Operation) (operands : List (Expression Quantity)) :
    Residue (Expression Quantity) := do
  let e := Expression.node op operands
  match ← OptionT.lift (evaluate none e) with
  | some value => return .atom (.number value)
  | none => return e

/-- A leaf of an expression. -/
def substituteQuantity : Quantity → Residue (Expression Quantity)
  | .var v =>
    match lookup replaced v with
    | .renumbered v => return .atom (.var v)
    | .fixed (.number x) => return .atom (.number x)
    | .fixed (.object o) => return .atom (.object o)
    | .missing => failure
  | q => return .atom q

/-- An expression; constant parts of it are evaluated. -/
def substituteExpression (e : Expression Quantity) : Residue (Expression Quantity) :=
  e.foldM (substituteQuantity replaced) fun op _ operands => foldConstants op operands

/-- An expression of a goal as a constant, if it consists of numbers only. -/
def constant? (e : Expression PartialQuantity) : Option (Expression Quantity) :=
  e.mapM fun
    | .number x => some (.number x)
    | .var _ | .ungrounded .. | .term _ => none

/-- An operation of a goal on numbers only is replaced by its value. -/
def foldPartialConstants (op : Operation) (operands : List (Expression PartialQuantity)) :
    Residue (Expression PartialQuantity) := do
  let e := Expression.node op operands
  match constant? e with
  | none => return e
  | some c =>
    match ← OptionT.lift (evaluate none c) with
    | some value => return .atom (.number value)
    | none => return e

/-- A leaf of an expression of a goal. -/
def substitutePartialQuantity : PartialQuantity → Residue (Expression PartialQuantity)
  | .var v =>
    match lookup replaced v with
    | .renumbered v => return .atom (.var v)
    | .fixed (.number x) => return .atom (.number x)
    | .fixed (.object o) => return .atom (.term (.object o))
    | .missing => failure
  | q => return .atom q

/-- An expression of a goal; constant parts of it are evaluated. -/
def substitutePartialExpression (e : Expression PartialQuantity) :
    Residue (Expression PartialQuantity) :=
  e.foldM (substitutePartialQuantity replaced) fun op _ operands => foldPartialConstants op operands

mutual

/-- A goal. Atoms on fixed variables are decided; connectives stay as they are. -/
def substituteGoal : Goal → Residue Goal
  | .fluent var value equal =>
    match lookup replaced var with
    | .renumbered var => return .fluent var value equal
    | .fixed (.object o) => return .constant ((o == value) == equal)
    | .fixed (.number _) | .missing => failure
  | .and goals => do return .and (← substituteGoals goals)
  | .or goals => do return .or (← substituteGoals goals)
  | .not goal => do return .not (← substituteGoal goal)
  | .timed time goal => do return .timed time (← substituteGoal goal)
  | .existential types goal => do return .existential types (← substituteGoal goal)
  | .universal types goal => do return .universal types (← substituteGoal goal)
  | .imply premise conclusion => do
    let premise ← substituteGoal premise
    let conclusion ← substituteGoal conclusion
    return .imply premise conclusion
  | .compare comparator terms => do
    return .compare comparator (← terms.mapM (substitutePartialExpression replaced))
  | .ungroundedFluent function arguments value equal =>
    return .ungroundedFluent function arguments value equal
  | .equality equal left right => return .equality equal left right
  | .constant holds => return .constant holds

/-- A list of goals. -/
def substituteGoals : List Goal → Residue (List Goal)
  | [] => return []
  | goal :: rest => do
    let goal ← substituteGoal goal
    let rest ← substituteGoals rest
    return goal :: rest

end

mutual

/-- A constraint. -/
def substituteConstraint : Constraint → Residue Constraint
  | .and constraints => do return .and (← substituteConstraints constraints)
  | .preference nameIndex constraint => do
    return .preference nameIndex (← substituteConstraint constraint)
  | .goalPreference nameIndex goal => do
    return .goalPreference nameIndex (← substituteGoal replaced goal)
  | .temporal modality times goals => do
    return .temporal modality times (← goals.mapM (substituteGoal replaced))

/-- A list of constraints. -/
def substituteConstraints : List Constraint → Residue (List Constraint)
  | [] => return []
  | constraint :: rest => do
    let constraint ← substituteConstraint constraint
    let rest ← substituteConstraints rest
    return constraint :: rest

end

/-- A leaf of the metric. A variable without a number counts as zero. -/
def substituteMeasure : Measure → Measure
  | .var v =>
    match lookup replaced v with
    | .renumbered v => .var v
    | .fixed (.number x) => .number x
    | .fixed (.object _) | .missing => .number 0.0
  | m => m

/-- The metric. -/
def substituteMetric (metric : Metric) : Metric :=
  { metric with
    expression := metric.expression.fold (fun m => .atom (substituteMeasure replaced m)) .node }

/-! ## Actions -/

/-- Literal conditions or effects: those that always hold are erased, and one that never holds
drops the action. -/
def substituteConditions : List Condition → Residue (List Condition)
  | [] => return []
  | c :: rest =>
    match lookup replaced c.var with
    | .renumbered var => do return ⟨var, c.value⟩ :: (← substituteConditions rest)
    | .fixed (.object o) => if o = c.value then substituteConditions rest else failure
    | .fixed (.number _) | .missing => failure

/-- A numeric condition; one between two numbers drops the action if it is violated and is kept
otherwise. -/
def substituteNumericCondition (c : NumericCondition) : Residue NumericCondition := do
  let c := { c with terms := ← c.terms.mapM (substituteExpression replaced) }
  if c.isViolated then failure else return c

/-- A numeric effect. -/
def substituteNumericEffect (e : NumericEffect) : Residue NumericEffect :=
  match lookup replaced e.var with
  | .renumbered var => do return ⟨e.assignment, var, ← substituteExpression replaced e.expression⟩
  | .fixed _ | .missing => failure

/-- Whether a single bound leaves only durations that are not positive. -/
def hasNoDuration : List DurationBound → Bool
  | [⟨_, comparator, .atom (.number x)⟩] =>
    x ≤ 0.0 && (comparator == .eq || comparator == .less || comparator == .lessEq)
  | _ => false

/-- An action. -/
def substituteAction (a : Action) : Residue Action := do
  let durations ← a.durations.mapM fun d => do
    return { d with expression := ← substituteExpression replaced d.expression }
  if hasNoDuration durations then failure
  let startConditions ← substituteConditions replaced a.startConditions
  let invariants ← substituteConditions replaced a.invariants
  let endConditions ← substituteConditions replaced a.endConditions
  let startEffects ← substituteConditions replaced a.startEffects
  let endEffects ← substituteConditions replaced a.endEffects
  let startNumericConditions ←
    a.startNumericConditions.mapM (substituteNumericCondition replaced)
  let numericInvariants ← a.numericInvariants.mapM (substituteNumericCondition replaced)
  let endNumericConditions ← a.endNumericConditions.mapM (substituteNumericCondition replaced)
  let startNumericEffects ← a.startNumericEffects.mapM (substituteNumericEffect replaced)
  let endNumericEffects ← a.endNumericEffects.mapM (substituteNumericEffect replaced)
  let preferences ← a.preferences.mapM fun p => do
    return { p with goal := ← substituteGoal replaced p.goal }
  return { a with
    durations, startConditions, invariants, endConditions, startEffects, endEffects,
    startNumericConditions, numericInvariants, endNumericConditions, startNumericEffects,
    endNumericEffects, preferences }

/-- What is left of the constructs of a list. -/
def keepResidues {α : Type} (substitute : α → Residue α) : List α → Except Error (List α)
  | [] => return []
  | a :: rest => do
    match ← (substitute a).run with
    | some a => return a :: (← keepResidues substitute rest)
    | none => keepResidues substitute rest

/-- Actions that carry their positions. -/
def renumber (actions : List Action) : List Action :=
  actions.zipIdx.map fun (a, i) => { a with index := i }

/-! ## Passes -/

/-- The remaining variables in their new order. -/
def remainingVariables (vars : Array Variable) (remaining : List Nat) : Array Variable :=
  (remaining.zipIdx.filterMap fun (old, new) =>
    vars[old]?.map fun v => { v with index := ⟨new⟩ }).toArray

/-- Removes the variables that are static, and tells how many there were. -/
def removeStaticPass (t : Task) : Except Error (Task × Nat) := do
  let constancies := constancies t
  let count := (constancies.toList.filter fun c => c ≠ .changing).length
  if count = 0 then return (t, 0)
  let remaining := remaining t.vars constancies
  let replaced := replacements constancies remaining
  let actions ← keepResidues (substituteAction replaced) t.actions
  let goals ← keepResidues (substituteAction replaced) t.goals
  let constraints ← keepResidues (substituteConstraint replaced) t.constraints
  let dropped := t.actions.length + t.goals.length - actions.length - goals.length
  let result := { t with
    vars := remainingVariables t.vars remaining
    actions := renumber actions
    goals := renumber goals
    constraints
    metric := t.metric.map (substituteMetric replaced)
    stats := { t.stats with droppedActions := t.stats.droppedActions + dropped } }
  return (result, count)

/-- Repeats passes until one removes nothing, and adds the number of removed variables to
`removed`. Every other pass removes a variable, so their number bounds the passes. -/
def removePasses : Nat → Nat → Task → Except Error (Task × Nat)
  | 0, removed, t => return (t, removed)
  | passes + 1, removed, t => do
    let (t, count) ← removeStaticPass t
    if count = 0 then return (t, removed) else removePasses passes (removed + count) t

/-- Removes static variables until none is left. -/
def removeStatics (t : Task) : Except Error Task := do
  let (t, removed) ← removePasses (t.vars.size + 1) 0 t
  return { t with
    stats := { t.stats with staticVariables := t.stats.staticVariables + removed } }

/-! ## Grounding a problem -/

/-- The conditions of a list that do not compare two numbers, `none` if one that does is
violated. -/
def openConditions (conditions : List NumericCondition) : Option (List NumericCondition) :=
  if conditions.any NumericCondition.isViolated then none
  else some (conditions.filter fun c => !c.isConstant)

/-- An action without its constant numeric conditions, `none` if one of them is violated. -/
def decideConditions (a : Action) : Option Action := do
  return { a with
    startNumericConditions := ← openConditions a.startNumericConditions
    numericInvariants := ← openConditions a.numericInvariants
    endNumericConditions := ← openConditions a.endNumericConditions }

/-- Decides the constant numeric conditions of all actions. Goals keep theirs. -/
def decideNumericConditions (t : Task) : Task :=
  let actions := t.actions.filterMap decideConditions
  { t with
    actions := renumber actions
    stats := { t.stats with
      droppedActions := t.stats.droppedActions + (t.actions.length - actions.length) } }

/-- Gives every variable the values of the facts about it. -/
def setInitialValues (t : Task) : Task :=
  { t with
    vars := t.vars.map fun v =>
      { v with initialValues := (factsOf t.task v).map fun fact => (fact.time, fact.value) } }

/-- Grounds a problem. Unless `keepStatic`, variables that no action changes are removed. -/
def ground (problem : Lifted.Problem) (keepStatic : Bool) : Except Error Task := do
  problem.validate
  let saturated ← (saturate problem).run' {}
  let reduced ← if keepStatic then pure saturated else removeStatics saturated
  return setInitialValues (decideNumericConditions reduced)

end TemporalPlanning.Grounding
