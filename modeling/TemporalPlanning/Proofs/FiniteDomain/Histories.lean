import TemporalPlanning.FiniteDomain.Cost
import TemporalPlanning.FiniteDomain.PermanentMutex
/-!
Histories of finite-domain tasks.

A task is built by operations that can be carried out in any order: values, variables, actions and
goals are created, initial values are entered, and data of the task are derived from the rest of it.
An operation can fail; what it has written before stays, and the next one goes on from there.
-/
set_option autoImplicit false

namespace TemporalPlanning.FiniteDomain

/-- Data that are derived from the rest of a task, unless that fails. -/
inductive Derivation where
  | requirers
  | producers
  | permanentMutex
  | costs (keepStatic : Bool)
deriving DecidableEq

/-- Derives data of a task. -/
def Derivation.update : Derivation → Update Unit
  | .requirers => computeRequirers
  | .producers => computeProducers
  | .permanentMutex => computePermanentMutex
  | .costs keepStatic => computeCosts keepStatic

/-- What can be done to a task. -/
inductive Edit where
  | createValue (name : String) (function : Option FunctionId)
  | createVariable (name : String)
  | createAnonymousVariable
  | createNumericVariable (name : String)
  | createAction (a : Action)
  | createGoal (a : Action)
  /-- Adds a value to the domain of a variable. -/
  | addValue (var : Nat) (value : ValueId)
  | addInitialValue (var : Nat) (value : ValueId) (holds : Bool) (time : Float)
  | addInitialNumber (var : Nat) (number time : Float)
  | addMutex (c d : FactCode)
  | setMetric (metric : Option Metric)
  | addConstraint (c : Constraint)
  | setPreferenceNames (names : List String)
  | computeInitialState
  | derive (d : Derivation)

/-- Carries out an operation. -/
def Edit.update : Edit → Update Unit
  | .createValue name function => discard (FiniteDomain.createValue name function)
  | .createVariable name => discard (FiniteDomain.createVariable name)
  | .createAnonymousVariable => discard FiniteDomain.createAnonymousVariable
  | .createNumericVariable name => discard (FiniteDomain.createNumericVariable name)
  | .createAction a => discard (FiniteDomain.createAction a)
  | .createGoal a => discard (FiniteDomain.createGoal a)
  | .addValue var value => modifyVariable var fun v => v.addValue value
  | .addInitialValue var value holds time =>
    updateVariable var fun v => v.addInitialValue value holds time
  | .addInitialNumber var number time =>
    updateNumericVariable var fun v => v.addInitialValue number time
  | .addMutex c d => FiniteDomain.addMutex c d
  | .setMetric metric => modify fun t => { t with metric }
  | .addConstraint c => modify fun t => { t with constraints := t.constraints ++ [c] }
  | .setPreferenceNames preferenceNames => modify fun t => { t with preferenceNames }
  | .computeInitialState => modify Task.withInitialState
  | .derive d => d.update

/-- The task that an operation leaves, whether it fails or not. -/
def Task.after (t : Task) (edit : Edit) : Task := (edit.update.runOn t).2

/-- The task after some operations on the empty one. -/
def taskOf (edits : List Edit) : Task := edits.foldl Task.after .empty

theorem taskOf_append_singleton (edits : List Edit) (edit : Edit) :
    taskOf (edits ++ [edit]) = (taskOf edits).after edit := List.foldl_append

end TemporalPlanning.FiniteDomain
