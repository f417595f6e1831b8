import TemporalPlanning.FiniteDomain.Task
/-!
Durations and costs of actions that are known before planning.

The cost of an action is the change of the metric that it causes. It depends on the state if the
duration does and the metric reads the makespan, or if a numeric effect reads a variable that the
metric reads. Variables that no action changes are static; unless they are kept, they are not in
the task any more, so only then they are looked for. All values are computed in the initial state.
-/
set_option autoImplicit false

namespace TemporalPlanning.FiniteDomain

/-- The duration of goals. -/
def goalDuration : Float := 0.002

/-- The cost of goals. -/
def goalCost : Cost Float := ⟨true, [goalDuration], true, 0.0⟩

/-! ## Dependence on the state -/

/-- For every numeric variable, whether no action changes it. -/
def staticVariables (t : Task) : Array Bool :=
  (t.actions.toList.flatMap Action.numericEffects).foldl
    (fun marks effect => marks.setIfInBounds effect.var false)
    (Array.replicate t.numericVars.size true)

/-- For every numeric variable, whether the metric reads it. -/
def metricVariables (t : Task) : Array Bool :=
  (Array.range t.numericVars.size).map fun var =>
    t.metric.any fun m => measures m.expression var

/-- Whether the metric reads the makespan. -/
def metricReadsTime (t : Task) : Bool := t.metric.any fun m => measuresTime m.expression

/-- What the costs of a task depend on. -/
structure Dependence where
  isStatic : Array Bool
  onMetric : Array Bool
  onTime : Bool

namespace Dependence

/-- The dependence of a task. -/
def ofTask (t : Task) (keepStatic : Bool) : Dependence where
  isStatic := if keepStatic then staticVariables t else #[]
  onMetric := metricVariables t
  onTime := metricReadsTime t

variable (d : Dependence)

/-- Whether an expression reads a variable that is not static. -/
def dependsOnState (e : Expression Quantity) : Bool :=
  (varsOf e).any fun var => !d.isStatic.getD var false

/-- Whether an expression reads a variable that is not static and is read by the metric. -/
def dependsOnMetric (e : Expression Quantity) : Bool :=
  (varsOf e).any fun var => !d.isStatic.getD var false && d.onMetric.getD var false

/-- Whether the duration of an action does not depend on the state. -/
def hasFixedDuration (a : Action) : Bool :=
  !a.durations.any fun bound => d.dependsOnState bound.expression

/-- Whether the cost of an action does not depend on the state. -/
def hasFixedCost (a : Action) : Bool :=
  (d.hasFixedDuration a || !d.onTime)
    && !a.numericEffects.any fun effect => d.dependsOnMetric effect.expression

end Dependence

/-! ## Costs -/

section Numbers

variable {α : Type} [Arithmetic α]

/-- The state after a numeric effect of an action. An effect on no variable is only evaluated. -/
def applyEffect (duration : α) (state : Array α) (effect : NumericEffect) :
    Except Error (Array α) := do
  let value ← evaluate state duration effect.expression
  return state.modify effect.var fun current => effect.assignment.apply current value

/-- The state after the numeric effects of an action, one after the other. -/
def applyEffects (state : Array α) (duration : α) (a : Action) : Except Error (Array α) :=
  a.numericEffects.foldlM (applyEffect duration) state

/-- The change of the metric when an action is applied in a state at a makespan. -/
def costIn (metric : Option Metric) (a : Action) (state : Array α) (makespan duration : α) :
    Except Error α :=
  match metric with
  | none => .ok (Arithmetic.ofFloat 0.0)
  | some m => do
    let before ← evaluateMetric state makespan m.expression
    let after ← applyEffects state duration a
    return Arithmetic.sub
      (← evaluateMetric after (Arithmetic.add makespan duration) m.expression) before

/-- The cost of an action, computed in a state. -/
def costOf (d : Dependence) (metric : Option Metric) (state : Array α) (a : Action) :
    Except Error (Cost α) := do
  let zero : α := Arithmetic.ofFloat 0.0
  let hasFixedDuration := d.hasFixedDuration a
  let durations ←
    if hasFixedDuration then a.durations.mapM fun bound => evaluate state zero bound.expression
    else pure []
  let isFixed := d.hasFixedCost a
  let value ← if isFixed then costIn metric a state zero (durations.headD zero) else pure zero
  return { hasFixedDuration, durations, isFixed, value }

end Numbers

/-- Computes the costs of all actions and goals in the initial state, which is determined first
if it does not have a number for every numeric variable. -/
def computeCosts (keepStatic : Bool) : Update Unit := do
  modify fun t =>
    if t.numericInitialState.size = t.numericVars.size then t else t.withInitialState
  modify fun t => { t with metricDependsOnTime := metricReadsTime t }
  let t ← get
  let d := Dependence.ofTask t keepStatic
  let costs ← liftExcept (t.actions.toList.mapM (costOf d t.metric t.numericInitialState))
  modify fun t =>
    { t with
      actions := t.actions.zipWith (fun a cost => { a with cost }) costs.toArray
      goals := t.goals.map fun goal => { goal with cost := goalCost }
      hasVariableCosts := costs.any fun cost => !cost.isFixed }

end TemporalPlanning.FiniteDomain
