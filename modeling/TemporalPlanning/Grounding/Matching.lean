import TemporalPlanning.Lifted.Hierarchy
/-!
Matching of operator conditions with reached values.

A reached value says that a function applied to objects can take an object as its value. The
literal conditions of an operator at start and over all are matched with reached values, which
binds the parameters that occur in them. A new value triggers every match in which it satisfies
one condition and the other conditions are satisfied by values of earlier levels, by itself or by
later values of its own level; so a combination of values of one level is found from its first
member. A condition that requires falsity can trigger a match but never has to be completed. The
parameters that no condition binds range over all objects of their types.
-/
set_option autoImplicit false

namespace TemporalPlanning.Grounding

open Lifted

/-- A task with its type hierarchy. -/
structure Setting where
  task : Lifted.Task
  hierarchy : Hierarchy

/-- The setting of a task. -/
def Setting.ofTask (task : Lifted.Task) : Setting := ⟨task, Hierarchy.ofTask task⟩

/-- The objects that a parameter with the given types ranges over. -/
def Setting.objectsOf (setting : Setting) (types : List TypeId) : List ObjectId :=
  setting.task.objectsOf setting.hierarchy types

/-- Whether an object may be bound to a parameter with the given types. -/
def Setting.admits (setting : Setting) (types : List TypeId) (object : ObjectId) : Bool :=
  setting.hierarchy.compatible (setting.task.typesOf object) types

/-- A function applied to objects has an object as its value. -/
structure ReachedValue where
  function : FunctionId
  arguments : List ObjectId
  value : ObjectId
deriving DecidableEq

/-- The objects bound to the parameters of an operator so far. -/
abbrev Bindings := List (Option ObjectId)

/-! ## Binding the parameters of a condition -/

/-- Extends bindings so that a term denotes an object. Fails if the term is another object, a
parameter bound to another object, or a parameter of other types. -/
def bindTerm (setting : Setting) (parameters : List Parameter) (bindings : Bindings) :
    Term × ObjectId → Option Bindings
  | (.object constant, object) => if constant = object then some bindings else none
  | (.param i, object) =>
    match bindings[i]?, parameters[i]? with
    | some (some bound), _ => if bound = object then some bindings else none
    | some none, some parameter =>
      if setting.admits parameter.types object then some (bindings.set i (some object)) else none
    | _, _ => none

/-- Extends bindings so that a condition reads as a reached value of the same function. -/
def bindFluent (setting : Setting) (parameters : List Parameter) (condition : Fluent)
    (reached : ReachedValue) (bindings : Bindings) : Option Bindings :=
  if condition.literal.arguments.length = reached.arguments.length then
    (condition.literal.arguments.zip reached.arguments ++ [(condition.value, reached.value)]).foldlM
      (bindTerm setting parameters) bindings
  else none

/-! ## Operators prepared for matching -/

/-- An operator with its position and the objects of each of its parameters. -/
structure Schema where
  index : Nat
  operator : Operator
  candidates : List (List ObjectId)

namespace Schema

/-- An operator prepared for matching. -/
def ofOperator (setting : Setting) (index : Nat) (operator : Operator) : Schema :=
  ⟨index, operator, operator.parameters.map fun p => setting.objectsOf p.types⟩

variable (s : Schema)

/-- The conditions to be matched, at start and over all. -/
def preconditions : List Fluent := s.operator.atStart.conditions ++ s.operator.invariants

/-- Nothing is bound yet. -/
def unbound : Bindings := s.operator.parameters.map fun _ => none

end Schema

/-- Whether a condition requires falsity. -/
def isNegated (condition : Fluent) : Bool := condition.value == .object .falsity

/-- All ways to bind the parameters that are not bound yet, the first parameter varying
slowest. -/
def completions : Bindings → List (List ObjectId) → List (List ObjectId)
  | some object :: bindings, _ :: candidates => (completions bindings candidates).map (object :: ·)
  | none :: bindings, objects :: candidates =>
    let rest := completions bindings candidates
    objects.flatMap fun object => rest.map (object :: ·)
  | _, _ => [[]]

/-! ## Matches triggered by a value -/

/-- All ways to extend bindings so that each condition reads as one of the values next to it. -/
def extensions (setting : Setting) (parameters : List Parameter) :
    List (Fluent × List ReachedValue) → Bindings → List Bindings
  | [], bindings => [bindings]
  | (condition, values) :: rest, bindings =>
    (values.filterMap fun v => bindFluent setting parameters condition v bindings).flatMap
      (extensions setting parameters rest)

/-- The conditions other than the triggering one that have to be completed, each with the allowed
values of its function. -/
def toComplete (s : Schema) (trigger : Nat) (allowed : List ReachedValue) :
    List (Fluent × List ReachedValue) :=
  (s.preconditions.zipIdx.filter fun (c, i) => i != trigger && !isNegated c).map fun (c, _) =>
    (c, allowed.filter fun v => v.function == c.literal.function)

/-- The arguments of all instances of an operator that a value triggers. -/
def instancesOf (setting : Setting) (s : Schema) (value : ReachedValue)
    (allowed : List ReachedValue) : List (List ObjectId) :=
  s.preconditions.zipIdx.flatMap fun (condition, i) =>
    if condition.literal.function = value.function then
      match bindFluent setting s.operator.parameters condition value s.unbound with
      | none => []
      | some bindings =>
        (extensions setting s.operator.parameters (toComplete s i allowed) bindings).flatMap
          fun bindings => completions bindings s.candidates
    else []

/-- The values that may complete a match: those of earlier levels, and those of the current level
from the trigger on. Values are listed in the order in which they were reached, those of the
current level from position `start` on. -/
def allowedFrom (values : List ReachedValue) (start trigger : Nat) : List ReachedValue :=
  values.take start ++ values.drop trigger

end TemporalPlanning.Grounding
