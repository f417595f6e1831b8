import TemporalPlanning.Grounding.Quantifier
/-!
Instances of operators.

An instance is built part by part. Literal conditions and effects and the goals of preferences
create the variables they mention. Numeric conditions, numeric effects and bounds do not: a
variable of a numeric function exists if the initial state or a goal mentions it, and an instance
that reads or writes one that does not exist is discarded. An instance whose effects at one time
point contradict each other is discarded too.
-/
set_option autoImplicit false

namespace TemporalPlanning.Grounding

open Grounded

/-- The object that a term denotes. -/
def bind (arguments : List ObjectId) : Lifted.Term → Except Error ObjectId
  | .param i =>
    match arguments[i]? with
    | some object => .ok object
    | none => .error (.unboundParameter i)
  | .object object => .ok object

/-- The objects that terms denote. -/
def bindAll (arguments : List ObjectId) (terms : List Lifted.Term) : Except Error (List ObjectId) :=
  terms.mapM (bind arguments)

/-- Whether the terms that must be equal or different are. -/
def identitiesHold (arguments : List ObjectId) : List Lifted.Identity → Except Error Bool
  | [] => return true
  | identity :: rest => do
    let left ← bind arguments identity.left
    let right ← bind arguments identity.right
    if (left == right) == identity.equal then identitiesHold arguments rest else return false

variable (task : Lifted.Task) (arguments : List ObjectId)

/-! ## Conditions and effects -/

/-- A literal condition or effect. -/
def groundFluent (fluent : Lifted.Fluent) : Step Condition := do
  let objects ← (bindAll arguments fluent.literal.arguments : Except Error _)
  let var ← variableOf task fluent.literal.function objects
  let value ← (bind arguments fluent.value : Except Error _)
  return ⟨var, value⟩

/-- A leaf of a numeric expression. -/
def groundQuantity : Lifted.Quantity → Attempt Quantity
  | .number x => return .number x
  | .term t => return .object (← (bind arguments t : Except Error _))
  | .fluent literal => do
    let objects ← (bindAll arguments literal.arguments : Except Error _)
    return .var (← existingVariable literal.function objects)
  | .duration => return .duration
  | .elapsed => return .elapsed

/-- A numeric expression. -/
def groundExpression (e : Expression Lifted.Quantity) : Attempt (Expression Quantity) :=
  e.mapM (groundQuantity arguments)

/-- A numeric condition. -/
def groundNumericCondition (c : Lifted.NumericCondition) : Attempt NumericCondition := do
  return ⟨c.comparator, ← c.operands.mapM (groundExpression arguments)⟩

/-- The literal effects of one time point. An effect that is repeated counts once; two different
values for one variable contradict each other. -/
def groundEffects : List Lifted.Fluent → List Condition → Attempt (List Condition)
  | [], grounded => return grounded
  | fluent :: rest, grounded => do
    let effect ← groundFluent task arguments fluent
    match grounded.find? fun other => other.var == effect.var with
    | some other => if other.value = effect.value then groundEffects rest grounded else failure
    | none => groundEffects rest (grounded ++ [effect])

/-- A numeric effect; one that assigns a term is a literal effect. -/
def groundNumericEffect (effect : Lifted.NumericEffect) : Attempt (Condition ⊕ NumericEffect) := do
  let objects ← (bindAll arguments effect.fluent.arguments : Except Error _)
  let var ← existingVariable effect.fluent.function objects
  match effect.assignment, effect.expression with
  | .assign, .atom (.term t) => return .inl ⟨var, ← (bind arguments t : Except Error _)⟩
  | assignment, expression =>
    return .inr ⟨assignment, var, ← groundExpression arguments expression⟩

/-- The literal effects among grounded numeric effects. -/
def literalEffects (effects : List (Condition ⊕ NumericEffect)) : List Condition :=
  effects.filterMap Sum.getLeft?

/-- The numeric effects among grounded numeric effects. -/
def numericEffects (effects : List (Condition ⊕ NumericEffect)) : List NumericEffect :=
  effects.filterMap Sum.getRight?

/-- A preference. Its goal may still be quantified. -/
def groundPreference (p : Lifted.Preference) : Step Preference := do
  let nameIndex ← preferenceIndex p.name
  let goal ← groundGoal task arguments p.goal
  return ⟨nameIndex, goal⟩

/-- A bound on the duration. -/
def groundDuration (d : Lifted.DurationBound) : Attempt DurationBound := do
  return ⟨d.time, d.comparator, ← groundExpression arguments d.expression⟩

/-! ## Actions -/

/-- The instance of an operator for its arguments. -/
def groundOperator (s : Schema) (name : String) : Attempt Action := do
  let op := s.operator
  let startConditions ← op.atStart.conditions.mapM fun c => (groundFluent task arguments c : Step _)
  let invariants ← op.invariants.mapM fun c => (groundFluent task arguments c : Step _)
  let endConditions ← op.atEnd.conditions.mapM fun c => (groundFluent task arguments c : Step _)
  let startNumericConditions ←
    op.atStart.numericConditions.mapM (groundNumericCondition arguments)
  let numericInvariants ← op.numericInvariants.mapM (groundNumericCondition arguments)
  let endNumericConditions ← op.atEnd.numericConditions.mapM (groundNumericCondition arguments)
  let startEffects ← groundEffects task arguments op.atStart.effects []
  let endEffects ← groundEffects task arguments op.atEnd.effects []
  let startChanges ← op.atStart.numericEffects.mapM (groundNumericEffect arguments)
  let endChanges ← op.atEnd.numericEffects.mapM (groundNumericEffect arguments)
  let preferences ← op.preferences.mapM fun p => (groundPreference task arguments p : Step _)
  let durations ← op.durations.mapM (groundDuration arguments)
  return {
    index := 0
    name
    operator := s.index
    arguments
    durations
    startConditions
    invariants
    endConditions
    startNumericConditions
    numericInvariants
    endNumericConditions
    startEffects := startEffects ++ literalEffects startChanges
    endEffects := endEffects ++ literalEffects endChanges
    startNumericEffects := numericEffects startChanges
    endNumericEffects := numericEffects endChanges
    preferences
    isGoal := op.isGoal }

/-- Looks at an instance of an operator. Unless it has been looked at before, its identities fail
or it is discarded, it becomes an action, and the values of its effects are reached at the next
level. -/
def groundInstance (s : Schema) : Step Unit := do
  let name := task.applied s.operator.name arguments
  if ← claim s name arguments then
    if ← (identitiesHold arguments s.operator.identities : Except Error _) then
      match ← (groundOperator task arguments s name).run with
      | none => return
      | some action => do
        let state ← get
        action.effects.forM (reach (state.level + 1))
        addAction action

end TemporalPlanning.Grounding
