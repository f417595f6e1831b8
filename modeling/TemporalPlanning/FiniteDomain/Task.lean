import TemporalPlanning.FiniteDomain.Basic
/-!
Building finite-domain tasks.

Values, variables, actions and goals are created one after the other and numbered in order of
creation. There are at most as many variables, and as many values, as facts can tell apart; a
creation that exceeds the capacity changes nothing.
-/
set_option autoImplicit false

namespace TemporalPlanning.FiniteDomain

/-- A computation on a task that may fail. What it has written before a failure stays. -/
abbrev Update := ExceptT Error (StateM Task)

/-- Runs a computation, and returns its result and the task that it leaves. -/
def Update.runOn {α : Type} (u : Update α) (t : Task) : Except Error α × Task := u.run.run t

/-! ## Creation -/

/-- The value with a name, created if there is none yet. -/
def createValue (name : String) (function : Option FunctionId) : Update ValueId := do
  match (← get).values.find? name with
  | some i => return ⟨i⟩
  | none =>
    let size := (← get).values.size
    if capacity ≤ size then throw (.capacityExceeded .values size)
    modify fun t => { t with values := (t.values.intern ⟨⟨size⟩, name, function⟩).2 }
    return ⟨size⟩

/-- Creates a variable without values. -/
def createVariable (name : String) : Update Nat := do
  let index := (← get).vars.size
  if capacity ≤ index then throw (.capacityExceeded .vars index)
  modify fun t => { t with vars := t.vars.push ⟨index, name, [], []⟩ }
  return index

/-- Creates a variable that is named after its position. -/
def createAnonymousVariable : Update Nat := do
  createVariable ("var" ++ toString (← get).vars.size)

/-- Creates a numeric variable. -/
def createNumericVariable (name : String) : Update Nat := do
  let index := (← get).numericVars.size
  modify fun t => { t with numericVars := t.numericVars.push ⟨index, name, []⟩ }
  return index

/-- Adds an action, which is numbered anew. -/
def createAction (a : Action) : Update Nat := do
  let index := (← get).actions.size
  modify fun t => { t with actions := t.actions.push { a with index } }
  return index

/-- The name of all goals. -/
def goalName : String := "<goal>"

/-- Adds a goal, which is numbered and named anew. -/
def createGoal (a : Action) : Update Nat := do
  let index := (← get).goals.size
  modify fun t =>
    { t with goals := t.goals.push { a with index, name := goalName, isGoal := true } }
  return index

/-! ## Changes -/

/-- Changes a variable. -/
def modifyVariable (var : Nat) (f : Variable → Variable) : Update Unit :=
  modify fun t => { t with vars := t.vars.modify var f }

/-- Changes a variable, unless that fails. -/
def updateVariable (var : Nat) (f : Variable → Except Error Variable) : Update Unit := do
  if let some v := (← get).vars[var]? then
    let v ← liftExcept (f v)
    modifyVariable var fun _ => v

/-- Changes a numeric variable, unless that fails. -/
def updateNumericVariable (var : Nat) (f : NumericVariable → Except Error NumericVariable) :
    Update Unit := do
  if let some v := (← get).numericVars[var]? then
    let v ← liftExcept (f v)
    modify fun t => { t with numericVars := t.numericVars.modify var fun _ => v }

/-- Makes two facts mutex. -/
def addMutex (c d : FactCode) : Update Unit :=
  modify fun t =>
    { t with mutex := (t.mutex.insert (c.code, d.code)).insert (d.code, c.code) }

/-! ## Initial state and goals -/

namespace Task

/-- The task with the values of all variables at time zero. -/
def withInitialState (t : Task) : Task :=
  { t with
    initialState := t.vars.map Variable.initialValue?
    numericInitialState := t.numericVars.map NumericVariable.initialValue }

/-- The distinct facts that the goals require, in the order of the goals. -/
def goalFacts (t : Task) : Except Error (List FactCode) :=
  (t.goals.toList.flatMap Action.conditions).foldlM
    (fun facts c => do
      let fact ← c.fact
      return if facts.contains fact then facts else facts ++ [fact]) []

end Task

end TemporalPlanning.FiniteDomain
