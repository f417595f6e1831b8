import TemporalPlanning.FiniteDomain.Task
import TemporalPlanning.Lifted.Hierarchy
import TemporalPlanning.Mutex.Fixpoint
import TemporalPlanning.Mutex.Graph
import TemporalPlanning.Options
/-!
Where the variables of a grounded task are placed.

A numeric variable becomes a numeric variable, and a variable of a function that is no predicate a
variable over the objects that the function can take. Propositions are packed: a group of mutex
propositions becomes one variable with a value per proposition. A proposition without partners,
and every member of a group in which some proposition must be false somewhere, becomes a boolean
variable. A proposition of several groups keeps its place in the first one.
-/
set_option autoImplicit false

namespace TemporalPlanning.Encoding

open FiniteDomain

/-- The place of every grounded variable in the finite-domain task. -/
structure Placement where
  /-- The numeric variable of a numeric variable. -/
  numeric : Array (Option Nat)
  /-- The variable of a variable over objects. -/
  finite : Array (Option Nat)
  /-- The facts that say that a proposition holds, the one that counts first. -/
  facts : Array (List FactCode)

namespace Placement

/-- Nothing has a place. -/
def empty (size : Nat) : Placement :=
  ⟨Array.replicate size none, Array.replicate size none, Array.replicate size []⟩

variable (p : Placement)

/-- The facts of a proposition. -/
def factsOf (v : VarId) : List FactCode := p.facts.getD v.index []

/-- The fact that says that a proposition holds. -/
def fact? (v : VarId) : Option FactCode := (p.factsOf v).head?

/-- The numeric variable of a variable. -/
def numeric? (v : VarId) : Option Nat := p.numeric.getD v.index none

/-- The variable over objects of a variable. -/
def finite? (v : VarId) : Option Nat := p.finite.getD v.index none

/-- Adds a fact to those of a proposition. -/
def addFact (v : VarId) (fact : FactCode) : Placement :=
  { p with facts := p.facts.modify v.index (· ++ [fact]) }

end Placement

variable (t : Grounded.Task)

/-! ## Numbers and objects -/

/-- Adds a value with a name to the domain of a variable. -/
def addNamedValue (var : Nat) (name : String) (function : Option FunctionId) : Update ValueId := do
  let value ← createValue name function
  modifyVariable var fun x => x.addValue value
  return value

/-- The objects that are values of a function. -/
def objectsFor (function : FunctionId) : List Lifted.ObjectEntry :=
  t.task.objects.toList.filter fun o =>
    t.task.compatibleTypes o.types (t.task.valueTypesOf function)

/-- Places a variable that is no proposition. -/
def placeVariable (isProposition : Array Bool) (p : Placement) (v : Grounded.Variable) :
    Update Placement := do
  if v.isNumeric then
    let var ← createNumericVariable (t.varName v.index)
    return { p with numeric := p.numeric.setIfInBounds v.index.index (some var) }
  else if Mutex.isMarked isProposition v.index then return p
  else
    let var ← createVariable (t.varName v.index)
    (objectsFor t v.function).forM fun o => discard (addNamedValue var o.name none)
    return { p with finite := p.finite.setIfInBounds v.index.index (some var) }

/-! ## Propositions that must be false -/

mutual

/-- The variables whose propositions a goal (or its negation) requires to be false. -/
def negatedIn (positive : Bool) : Grounded.Goal → List VarId
  | .fluent var value equal => if ((value == .truth) == equal) != positive then [var] else []
  | .and goals | .or goals => negatedInList positive goals
  | .not goal => negatedIn (!positive) goal
  | .imply premise conclusion => negatedIn (!positive) premise ++ negatedIn positive conclusion
  | .timed _ goal | .existential _ goal | .universal _ goal => negatedIn positive goal
  | .ungroundedFluent .. | .equality .. | .compare .. | .constant _ => []

/-- The variables whose propositions some goal of a list requires to be false. -/
def negatedInList (positive : Bool) : List Grounded.Goal → List VarId
  | [] => []
  | goal :: rest => negatedIn positive goal ++ negatedInList positive rest

end

/-- The variables that an action requires to be false in a condition or preference. -/
def negatedBy (a : Grounded.Action) : List VarId :=
  (a.conditions.filter fun c => c.value == .falsity).map (·.var)
    ++ a.preferences.flatMap fun p => negatedIn true p.goal

/-- For every variable, whether it is a proposition that some action requires to be false. -/
def negated (isProposition : Array Bool) (actions : List Grounded.Action) : Array Bool :=
  (actions.flatMap negatedBy).foldl
    (fun marks v =>
      if Mutex.isMarked isProposition v then marks.setIfInBounds v.index true else marks)
    (Array.replicate isProposition.size false)

/-! ## Groups of propositions -/

/-- Places a proposition in a boolean variable of its own. -/
def placeBoolean (p : Placement) (v : VarId) : Update Placement := do
  let var ← createVariable (t.varName v)
  modifyVariable var fun x => (x.addValue .falsity).addValue .truth
  return p.addFact v (← liftExcept (FactCode.pack var .truth))

/-- Places a proposition in a variable of a group. -/
def placeMember (var : Nat) (p : Placement) (v : VarId) : Update Placement := do
  let value ← addNamedValue var (t.varName v) (t.vars[v.index]?.map (·.function))
  return p.addFact v (← liftExcept (FactCode.pack var value))

/-- Places the propositions of a group in one variable. -/
def placeTogether (p : Placement) (g : Mutex.Group) : Update Placement := do
  let var ← createAnonymousVariable
  let p ← g.propositions.foldlM (placeMember t var) p
  if g.noneOfThem then modifyVariable var fun x => x.addValue .undefined
  return p

/-- Places a proposition in a boolean variable, unless it has a place already. -/
def placeIfMissing (p : Placement) (v : VarId) : Update Placement :=
  if (p.factsOf v).isEmpty then placeBoolean t p v else return p

/-- Places the propositions of a group. -/
def placeGroup (isNegated : Array Bool) (p : Placement) (g : Mutex.Group) : Update Placement :=
  match g.propositions with
  | [v] => placeBoolean t p v
  | propositions =>
    if propositions.any (Mutex.isMarked isNegated) then
      propositions.foldlM (placeIfMissing t) p
    else placeTogether t p g

/-- Keeps the first place of every proposition and takes it out of the others. -/
def keepFirst (p : Placement) : Update Placement := do
  p.facts.toList.forM fun facts =>
    (facts.drop 1).forM fun fact => modifyVariable fact.var fun x => x.displace fact.value
  return { p with facts := p.facts.map (·.take 1) }

/-- The graph of the propositions of a task and their mutex pairs. -/
def mutexGraph (isProposition : Array Bool) (mutex : Mutex.Relation) : Mutex.Graph :=
  mutex.toList.foldl (fun g (v, w) => g.addAdjacent v w)
    ((Mutex.marked isProposition).foldl Mutex.Graph.addVertex .empty)

/-- The groups of mutex propositions. A graph that has not been split before always has cliques that
keep to its propositions. -/
def mutexGroups (grouping : Grouping) (isProposition : Array Bool) (mutex : Mutex.Relation) :
    List Mutex.Group :=
  let g := mutexGraph isProposition mutex
  match grouping with
  | .cliques => g.split?.elim [] Mutex.Graph.groupList
  | .components => g.splitComponents.groupList

/-! ## All variables -/

/-- Places all variables, given the actions that are encoded. -/
def place (o : Options) (isProposition : Array Bool) (mutex : Mutex.Relation)
    (actions : List Grounded.Action) : Update Placement := do
  let p ← t.vars.toList.foldlM (placeVariable t isProposition) (.empty t.vars.size)
  if o.onlyMutex then (Mutex.marked isProposition).foldlM (placeBoolean t) p
  else
    let isNegated := negated isProposition (actions ++ t.goals)
    let p ← (mutexGroups o.grouping isProposition mutex).foldlM (placeGroup t isNegated) p
    keepFirst p

end TemporalPlanning.Encoding
