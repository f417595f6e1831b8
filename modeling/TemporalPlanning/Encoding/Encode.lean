import TemporalPlanning.Encoding.Construct
import TemporalPlanning.FiniteDomain.ActionIndex
import TemporalPlanning.FiniteDomain.Cost
import TemporalPlanning.FiniteDomain.PermanentMutex
/-!
Encoding of a grounded task with finite-domain variables.

The mutex pairs of the task are computed first. Actions whose conditions exclude each other are
left out; variables are placed, and everything else is expressed by the places of its variables.
The result also holds what is derived from a finite-domain task.
-/
set_option autoImplicit false

namespace TemporalPlanning.Encoding

open FiniteDomain

/-- The mutex pairs as a text with the names of a pair in each line. -/
def mutexText (t : Grounded.Task) (mutex : Mutex.Relation) : String :=
  Text.lines (mutex.toList.map fun (v, w) => t.varName v ++ " " ++ t.varName w)

/-- The actions whose conditions do not exclude each other. -/
def consistentActions (t : Grounded.Task) (mutex : Mutex.Relation) : List Grounded.Action :=
  let isProposition := Mutex.propositions t
  t.actions.filter fun a => !Mutex.hasExclusiveConditions isProposition mutex a

namespace Encoder

variable (enc : Encoder)

/-- Makes the facts of two mutex propositions mutex, unless they are the same. -/
def addMutexPair (v w : VarId) : Update Unit :=
  match enc.placement.fact? v, enc.placement.fact? w with
  | some c, some d => if c = d then return else addMutex c d
  | _, _ => return

/-- Adds actions, goals, constraints, the metric and mutex facts. -/
def addConstructs (actions : List Grounded.Action) (mutex : Mutex.Relation) : Update Unit := do
  actions.forM fun a => do discard (createAction (← enc.action a))
  enc.grounded.goals.forM fun a => do discard (createGoal (← enc.action a))
  let t ← get
  let constraints ← liftExcept (enc.constraintList t enc.grounded.constraints)
  let metric ← liftExcept (enc.grounded.metric.mapM enc.metric)
  modify fun t =>
    { t with preferenceNames := enc.grounded.preferenceNames, constraints, metric }
  mutex.toList.forM fun (v, w) => enc.addMutexPair v w

end Encoder

/-- Computes all that is derived from a task. -/
def derive (keepStatic : Bool) : Update Unit := do
  modify Task.withInitialState
  computeRequirers
  computeProducers
  computePermanentMutex
  computeCosts keepStatic

/-- Encodes a task, given its mutex pairs. -/
def build (t : Grounded.Task) (o : Options) (mutex : Mutex.Relation) : Update Unit := do
  let isProposition := Mutex.propositions t
  let actions := consistentActions t mutex
  let placement ← place t o isProposition mutex actions
  let enc : Encoder := ⟨t, isProposition, placement⟩
  enc.setInitialValues
  enc.addConstructs actions mutex
  derive o.keepStatic

/-- What encoding a task yields. -/
structure Outcome where
  /-- The contents of the mutex file, if one is to be written. -/
  mutexFile? : Option String
  /-- The encoded task. -/
  result : Except Error Task

/-- Encodes a task. -/
def encode (t : Grounded.Task) (o : Options) : Outcome :=
  let mutex := (Mutex.fixpoint t o.passLimit).mutex
  { mutexFile? := if o.writesMutexFile then some (mutexText t mutex) else none
    result :=
      match (build t o mutex).runOn .empty with
      | (.ok _, task) => .ok task
      | (.error e, _) => .error e }

end TemporalPlanning.Encoding
