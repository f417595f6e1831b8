import TemporalPlanning.Encoding.Initial
import TemporalPlanning.Grounded.Form
/-!
Conditions, effects, goals and the metric of a finite-domain task.

A proposition holds if its variable has its value; a condition that it is false is one on the
other value of a boolean variable. Deleting a proposition makes a boolean variable false and leaves
none of the propositions of a shared one, unless another of them is added by the same effects.
-/
set_option autoImplicit false

namespace TemporalPlanning.Encoding

open FiniteDomain

/-- The negation of a goal. It is taken into comparisons and decided goals, and cancels another
negation. -/
def negate : Goal → Goal
  | .not goal => goal
  | .compare comparator terms => .compare comparator.negated terms
  | .constant holds => .constant (!holds)
  | goal => .not goal

namespace Encoder

variable (enc : Encoder)

/-! ## Places -/

def unknown {α : Type} (v : VarId) : Except Error α := .error (.unknownVariable (enc.nameOf v))

/-- The numeric variable of a grounded variable. -/
def numericVar (v : VarId) : Except Error Nat :=
  match enc.placement.numeric? v with
  | some var => .ok var
  | none => enc.unknown v

/-- The fact that says that a proposition holds. -/
def fact (v : VarId) : Except Error FactCode :=
  match enc.placement.fact? v with
  | some fact => .ok fact
  | none => enc.unknown v

/-- The value of a variable that an object names. -/
def objectValue? (t : Task) (var : Nat) (o : ObjectId) : Option ValueId := do
  let value ← t.value? (enc.objectName o)
  let x ← t.vars[var]?
  if x.hasValue value then return value else none

/-- The variable and the value which say that a grounded variable has an object as its value. -/
def objectFact (t : Task) (v : VarId) (o : ObjectId) : Except Error (Nat × ValueId) :=
  match enc.placement.finite? v with
  | none => enc.unknown v
  | some var =>
    match enc.objectValue? t var o with
    | some value => .ok (var, value)
    | none => .error (.invalidValue (enc.objectName o) (enc.nameOf v))

/-- Whether a grounded variable is a proposition. -/
def isLiteral (v : VarId) : Bool := Mutex.isMarked enc.isProposition v

/-! ## Conditions and effects -/

/-- The value that a variable does not have if it has the given one, of two. -/
def oppositeOf (t : Task) (fact : FactCode) : Except Error ValueId :=
  match t.vars[fact.var]? with
  | some x => x.opposite fact.value
  | none => .error (.unknownVariable (t.varName fact.var))

/-- A condition. -/
def condition (t : Task) (c : Grounded.Condition) : Except Error Condition :=
  if enc.isLiteral c.var then do
    let fact ← enc.fact c.var
    if c.value = .falsity then return .plain fact.var (← oppositeOf t fact)
    else return .plain fact.var fact.value
  else do
    let (var, value) ← enc.objectFact t c.var c.value
    return .plain var value

/-- Whether an effect adds another proposition than `v` to a variable. -/
def adds (var : Nat) (v : VarId) (e : Grounded.Condition) : Bool :=
  e.var != v && e.value == .truth && enc.isLiteral e.var
    && (enc.placement.fact? e.var).map FactCode.var == some var

/-- The effect of deleting the proposition of a fact; the domain must have room for it. -/
def deletion (fact : FactCode) : Update Condition := do
  if (← get).vars[fact.var]?.any Variable.isBoolean then
    return .plain fact.var .falsity
  else
    modifyVariable fact.var Variable.allowUndefined
    return .plain fact.var .undefined

/-- One of the effects that take place together; a deletion may be implied by another one. -/
def effect (together : List Grounded.Condition) (e : Grounded.Condition) :
    Update (Option Condition) := do
  if enc.isLiteral e.var && e.value == .falsity then
    let fact ← liftExcept (enc.fact e.var)
    if together.any (enc.adds fact.var e.var) then return none
    else return some (← deletion fact)
  else return some (← liftExcept (enc.condition (← get) e))

/-- Effects that take place together with those of another list. -/
def effectsAmong (together : List Grounded.Condition) :
    List Grounded.Condition → Update (List Condition)
  | [] => return []
  | e :: rest => do
    let first ← enc.effect together e
    let others ← effectsAmong together rest
    return first.toList ++ others

/-- Effects that take place together. -/
def effects (es : List Grounded.Condition) : Update (List Condition) := enc.effectsAmong es es

/-! ## Expressions -/

/-- A leaf of an expression. -/
def quantity : Grounded.Quantity → Except Error Quantity
  | .number x => .ok (.number x)
  | .var v => .var <$> enc.numericVar v
  | .object o => .error (.invalidTask (.objectInExpression (enc.objectName o)))
  | .duration => .ok .duration
  | .elapsed => .ok .elapsed

/-- An expression of an action. -/
def expression (e : Expression Grounded.Quantity) : Except Error (Expression Quantity) :=
  e.mapM enc.quantity

/-- A leaf of an expression of a goal. -/
def partialQuantity : Grounded.PartialQuantity → Except Error Quantity
  | .number x => .ok (.number x)
  | .var v => .var <$> enc.numericVar v
  | q@(.ungrounded ..) | q@(.term _) => .error (.invalidTask (.unexpandedTerm q.form))

/-- An expression of a goal. -/
def partialExpression (e : Expression Grounded.PartialQuantity) :
    Except Error (Expression Quantity) :=
  e.mapM enc.partialQuantity

/-- A leaf of the metric. -/
def measure : Grounded.Measure → Except Error Measure
  | .number x => .ok (.number x)
  | .totalTime => .ok .totalTime
  | .isViolated i => .ok (.isViolated i)
  | .var v => .var <$> enc.numericVar v

/-! ## Goals and constraints -/

/-- The goal that a variable has (or does not have) a value. -/
def fluentGoal (t : Task) (v : VarId) (o : ObjectId) (equal : Bool) : Except Error Goal :=
  if enc.isLiteral v then do
    let fact ← enc.fact v
    let holds := Goal.fact fact.var fact.value
    return if (o == .truth) == equal then holds else negate holds
  else do
    let (var, value) ← enc.objectFact t v o
    let holds := Goal.fact var value
    return if equal then holds else negate holds

mutual

/-- A goal. -/
def goal (t : Task) : Grounded.Goal → Except Error Goal
  | .fluent v o equal => enc.fluentGoal t v o equal
  | .and goals => .and <$> goalList t goals
  | .or goals => .or <$> goalList t goals
  | .not g => negate <$> goal t g
  | .compare comparator terms => .compare comparator <$> terms.mapM enc.partialExpression
  | .timed time g => .timed time <$> goal t g
  | .constant holds => .ok (.constant holds)
  | g@(.ungroundedFluent ..) | g@(.imply ..) | g@(.existential ..) | g@(.universal ..)
  | g@(.equality ..) => .error (.invalidTask (.unexpandedGoal g.form))

/-- A list of goals. -/
def goalList (t : Task) : List Grounded.Goal → Except Error (List Goal)
  | [] => .ok []
  | g :: rest => do
    let first ← goal t g
    let others ← goalList t rest
    return first :: others

end

/-- A preference. -/
def preference (t : Task) (p : Grounded.Preference) : Except Error Preference := do
  return ⟨p.nameIndex, ← enc.goal t p.goal⟩

mutual

/-- A constraint. -/
def constraint (t : Task) : Grounded.Constraint → Except Error Constraint
  | .and constraints => .and <$> constraintList t constraints
  | .preference nameIndex c => .preference nameIndex <$> constraint t c
  | .goalPreference nameIndex g => .goalPreference nameIndex <$> enc.goal t g
  | .temporal modality times goals => .temporal modality times <$> enc.goalList t goals

/-- A list of constraints. -/
def constraintList (t : Task) : List Grounded.Constraint → Except Error (List Constraint)
  | [] => .ok []
  | c :: rest => do
    let first ← constraint t c
    let others ← constraintList t rest
    return first :: others

end

/-- The metric. -/
def metric (m : Grounded.Metric) : Except Error Metric := do
  return ⟨m.objective, ← m.expression.mapM enc.measure⟩

/-! ## Actions -/

def durationBound (d : Grounded.DurationBound) : Except Error DurationBound := do
  return ⟨d.time, d.comparator, ← enc.expression d.expression⟩

def numericCondition (c : Grounded.NumericCondition) : Except Error NumericCondition := do
  return ⟨c.comparator, ← c.terms.mapM enc.expression⟩

def numericEffect (e : Grounded.NumericEffect) : Except Error NumericEffect := do
  return ⟨e.assignment, ← enc.numericVar e.var, ← enc.expression e.expression⟩

/-- An action whose effects have been encoded. -/
def actionWith (t : Task) (a : Grounded.Action) (startEffects endEffects : List Condition) :
    Except Error Action := do
  let marked := fun (c : Condition) =>
    { c with
      isModified := (startEffects ++ endEffects).any fun e =>
        e.var == c.var && e.value != c.value }
  let durations ← a.durations.mapM enc.durationBound
  let startConditions ← a.startConditions.mapM (enc.condition t)
  let invariants ← a.invariants.mapM (enc.condition t)
  let endConditions ← a.endConditions.mapM (enc.condition t)
  let startNumericConditions ← a.startNumericConditions.mapM enc.numericCondition
  let numericInvariants ← a.numericInvariants.mapM enc.numericCondition
  let endNumericConditions ← a.endNumericConditions.mapM enc.numericCondition
  let startNumericEffects ← a.startNumericEffects.mapM enc.numericEffect
  let endNumericEffects ← a.endNumericEffects.mapM enc.numericEffect
  let preferences ← a.preferences.mapM (enc.preference t)
  return { Action.empty a.index a.name a.isGoal with
    durations
    startConditions := startConditions.map marked
    invariants := invariants.map marked
    endConditions := endConditions.map marked
    startNumericConditions
    numericInvariants
    endNumericConditions
    startEffects
    endEffects
    startNumericEffects
    endNumericEffects
    preferences }

/-- An action. Its effects come first, as they may extend domains. -/
def action (a : Grounded.Action) : Update Action := do
  let startEffects ← enc.effects a.startEffects
  let endEffects ← enc.effects a.endEffects
  liftExcept (enc.actionWith (← get) a startEffects endEffects)

end Encoder

end TemporalPlanning.Encoding
