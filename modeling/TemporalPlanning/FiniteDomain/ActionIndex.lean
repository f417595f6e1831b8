import TemporalPlanning.FiniteDomain.Task
/-!
Actions by the facts of their conditions and effects.

The requirers of a fact are the actions with a condition on it, the producers those with an effect
on it, in the order of the actions and each once. An index is replaced only when all facts could
be packed; the list of actions without conditions is rebuilt from the start.
-/
set_option autoImplicit false

namespace TemporalPlanning.FiniteDomain

namespace ActionIndex

/-- Records an action for a fact, unless that is known. -/
def add (index : ActionIndex) (fact : FactCode) (action : Nat) : ActionIndex :=
  index.alter fact.code fun
    | some actions => some (if actions.contains action then actions else actions ++ [action])
    | none => some [action]

/-- Records an action for the facts of a list. -/
def addAll (index : ActionIndex) (conditions : List Condition) (action : Nat) :
    Except Error ActionIndex :=
  conditions.foldlM (fun index c => do return add index (← c.fact) action) index

/-- The actions of a fact. -/
def actionsOf (index : ActionIndex) (fact : Nat) : List Nat := index.getD fact []

end ActionIndex

/-- Records an action under its conditions, or as one without conditions. -/
def indexConditions (index : ActionIndex) (a : Action) : Update ActionIndex :=
  if a.conditions.isEmpty then do
    modify fun t => { t with unconditioned := t.unconditioned.push a.index }
    return index
  else liftExcept (index.addAll a.conditions a.index)

/-- Finds the requirers of all facts and the actions without conditions. -/
def computeRequirers : Update Unit := do
  modify fun t => { t with unconditioned := #[] }
  let requirers ← (← get).actions.toList.foldlM indexConditions ∅
  modify fun t => { t with requirers }

/-- Finds the producers of all facts. -/
def computeProducers : Update Unit := do
  let producers ← liftExcept <| (← get).actions.toList.foldlM
    (fun index a => ActionIndex.addAll index a.effects a.index) ∅
  modify fun t => { t with producers }

end TemporalPlanning.FiniteDomain
