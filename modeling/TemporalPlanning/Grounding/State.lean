import TemporalPlanning.Grounded.Basic
import TemporalPlanning.Grounding.Matching
import TemporalPlanning.Registry
import Std.Data.TreeSet
/-!
The state of grounding.

Grounding creates variables and preference names on first use, remembers which instances it has
already looked at, and collects actions, goals and reached values. Values are kept in the order in
which they were reached. The values of the current level start at `levelStart` and end before
`levelEnd`; the values behind them belong to the next level.
-/
set_option autoImplicit false

namespace TemporalPlanning.Grounding

open Grounded

/-- The key of a function applied to objects. -/
def atomKey (function : FunctionId) (arguments : List ObjectId) : List Nat :=
  function.index :: arguments.map ObjectId.index

/-- The key of a variable. -/
def variableKey (v : Variable) : List Nat := atomKey v.function v.arguments

/-- Variables, found by function and arguments. -/
abbrev VariableTable := Registry (List Nat) Variable variableKey

/-- The position of a variable, if it exists. -/
def VariableTable.var? (table : VariableTable) (function : FunctionId)
    (arguments : List ObjectId) : Option VarId :=
  (table.find? (atomKey function arguments)).map VarId.mk

/-- What grounding has built so far. -/
structure State where
  vars : VariableTable := Registry.empty
  preferenceNames : Registry String String id := Registry.empty
  /-- Names of the instances of ordinary operators that have been looked at. -/
  triedActions : Std.TreeSet String := ∅
  /-- Operators and arguments of the instances of goal operators that have been looked at. -/
  triedGoals : Std.TreeSet (List Nat) := ∅
  actions : Array Action := #[]
  goals : Array Action := #[]
  values : Array ReachedValue := #[]
  level : Nat := 0
  levelStart : Nat := 0
  levelEnd : Nat := 0
  /-- The number of actions and goals that the levels before the current one have found. -/
  counted : Nat := 0
  levels : Array LevelStats := #[]

/-- A step of grounding. -/
abbrev Step := StateT State (Except Error)

/-- A step that may come to nothing, for instance because a variable does not exist. -/
abbrev Attempt := OptionT Step

/-! ## Variables and names -/

/-- The variable of a function applied to objects, created on first use. -/
def variableOf (task : Lifted.Task) (function : FunctionId) (arguments : List ObjectId) :
    Step VarId := do
  let state ← get
  let fresh : Variable :=
    { index := ⟨state.vars.size⟩, function, arguments, isNumeric := task.isNumeric function,
      reached := [], initialValues := [] }
  let (i, vars) := state.vars.intern fresh
  set { state with vars }
  return ⟨i⟩

/-- The existing variable of a function applied to objects. -/
def existingVariable (function : FunctionId) (arguments : List ObjectId) : Attempt VarId := do
  let state : State ← get
  OptionT.mk (pure (state.vars.var? function arguments))

/-- The position of a preference name, created on first use. -/
def preferenceIndex (name : String) : Step Nat := do
  let state ← get
  let (i, preferenceNames) := state.preferenceNames.intern name
  set { state with preferenceNames }
  return i

/-! ## Reached values and instances -/

/-- Records that a variable reaches a value at a level, unless it has reached it before. -/
def reach (level : Nat) (c : Condition) : Step Unit := modify fun state =>
  match state.vars.get? c.var.index with
  | none => state
  | some v =>
    if v.isReached c.value then state
    else
      { state with
        vars :=
          state.vars.modify c.var.index
            (fun v => { v with reached := setLevel c.value level v.reached }) fun _ => rfl
        values := state.values.push ⟨v.function, v.arguments, c.value⟩ }

/-- Whether an instance of an operator is looked at for the first time, which it no longer is
from then on. Ordinary actions are told apart by their names, goals by operator and arguments. -/
def claim (s : Schema) (name : String) (arguments : List ObjectId) : Step Bool := do
  let state ← get
  if s.operator.isGoal then
    let key := s.index :: arguments.map ObjectId.index
    if state.triedGoals.contains key then return false
    set { state with triedGoals := state.triedGoals.insert key }
    return true
  else
    if state.triedActions.contains name then return false
    set { state with triedActions := state.triedActions.insert name }
    return true

/-- Adds an action to the goals or to the ordinary actions. -/
def addAction (action : Action) : Step Unit := modify fun state =>
  if action.isGoal then
    { state with goals := state.goals.push { action with index := state.goals.size } }
  else
    { state with actions := state.actions.push { action with index := state.actions.size } }

end TemporalPlanning.Grounding
