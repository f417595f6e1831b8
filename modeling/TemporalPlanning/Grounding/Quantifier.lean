import TemporalPlanning.Grounding.State
/-!
Goals of preferences and constraints, and the elimination of their quantifiers.

A goal is grounded in two steps. First the parameters of the enclosing operator or constraint are
replaced by objects, while the parameters of quantifiers inside the goal stay symbolic. Then every
quantifier is replaced by the conjunction or disjunction of its instances over the objects of its
types, and whatever is decided by then is simplified away. A goal that refers to a variable of a
non-predicate function that does not exist is unresolved; a proposition that does not exist is
never true.
-/
set_option autoImplicit false

namespace TemporalPlanning.Grounding

open Grounded

/-! ## Symbolic goals -/

/-- A term under the bindings of the enclosing parameters. -/
def partialTerm (arguments : List ObjectId) : Lifted.Term → PartialTerm
  | .param i =>
    match arguments[i]? with
    | some object => .object object
    | none => .quantified (i - arguments.length)
  | .object object => .object object

/-- A function application that has (or does not have) a value. Its variable is created if it
refers to no quantified parameter. -/
def fluentGoal (task : Lifted.Task) (arguments : List ObjectId) (literal : Lifted.Literal)
    (value : Lifted.Term) (equal : Bool) : Step Goal := do
  let terms := literal.arguments.map (partialTerm arguments)
  match terms.mapM PartialTerm.object?, partialTerm arguments value with
  | some objects, .object object =>
    return .fluent (← variableOf task literal.function objects) object equal
  | _, value => return .ungroundedFluent literal.function terms value equal

/-- A leaf of a numeric expression in a goal. Variables are created as in goals; the duration of
an action has no meaning here. -/
def partialQuantity (task : Lifted.Task) (arguments : List ObjectId) :
    Lifted.Quantity → Step PartialQuantity
  | .number x => return .number x
  | .term t => return .term (partialTerm arguments t)
  | .fluent literal => do
    let terms := literal.arguments.map (partialTerm arguments)
    match terms.mapM PartialTerm.object? with
    | some objects => return .var (← variableOf task literal.function objects)
    | none => return .ungrounded literal.function terms
  | .duration | .elapsed => throw (.invalidTask .durationInGoal)

/-- A comparison. Equality between terms, or between a function that is not numeric and a term,
is not numeric. -/
def compareGoal (task : Lifted.Task) (arguments : List ObjectId) (comparator : Comparator)
    (left right : Expression Lifted.Quantity) : Step Goal := do
  let numeric : Step Goal := do
    let left ← left.mapM (partialQuantity task arguments)
    let right ← right.mapM (partialQuantity task arguments)
    return .compare comparator [left, right]
  let equal := comparator == .eq
  if comparator != .eq && comparator != .neq then numeric
  else
    match left, right with
    | .atom (.fluent literal), .atom (.term term)
    | .atom (.term term), .atom (.fluent literal) =>
      if task.isNumeric literal.function then numeric
      else fluentGoal task arguments literal term equal
    | .atom (.term l), .atom (.term r) =>
      return .equality equal (partialTerm arguments l) (partialTerm arguments r)
    | _, _ => numeric

mutual

/-- Grounds the parts of a goal that depend on the enclosing parameters only. -/
def groundGoal (task : Lifted.Task) (arguments : List ObjectId) : Lifted.Goal → Step Goal
  | .literal l => fluentGoal task arguments l (.object .truth) true
  | .negLiteral l => fluentGoal task arguments l (.object .falsity) true
  | .and goals => do return .and (← groundGoals task arguments goals)
  | .or goals => do return .or (← groundGoals task arguments goals)
  | .not goal => do return .not (← groundGoal task arguments goal)
  | .imply premise conclusion => do
    let premise ← groundGoal task arguments premise
    let conclusion ← groundGoal task arguments conclusion
    return .imply premise conclusion
  | .existential parameters goal => do
    return .existential (parameters.map (·.types)) (← groundGoal task arguments goal)
  | .universal parameters goal => do
    return .universal (parameters.map (·.types)) (← groundGoal task arguments goal)
  | .compare comparator left right => compareGoal task arguments comparator left right
  | .equality left right =>
    return .equality true (partialTerm arguments left) (partialTerm arguments right)
  | .inequality left right =>
    return .equality false (partialTerm arguments left) (partialTerm arguments right)
  | .timed time goal => do return .timed time (← groundGoal task arguments goal)

/-- Grounds a list of goals from the left. -/
def groundGoals (task : Lifted.Task) (arguments : List ObjectId) :
    List Lifted.Goal → Step (List Goal)
  | [] => return []
  | goal :: rest => do
    let goal ← groundGoal task arguments goal
    let rest ← groundGoals task arguments rest
    return goal :: rest

end

/-! ## Instances of quantified goals -/

/-- The object that a symbolic term denotes under the bindings of the enclosing quantifiers. -/
def resolve (bindings : List ObjectId) : PartialTerm → Except Error ObjectId
  | .object object => .ok object
  | .quantified i =>
    match bindings[i]? with
    | some object => .ok object
    | none => .error (.unboundParameter i)

/-- Every combination of objects for a list of quantified parameters, the first one varying
slowest. -/
def combinations (setting : Setting) : List (List TypeId) → List (List ObjectId)
  | [] => [[]]
  | types :: rest =>
    let tails := combinations setting rest
    (setting.objectsOf types).flatMap fun object => tails.map (object :: ·)

/-- The conjunction or disjunction of simplified goals. -/
def combineGoals (conjunction : Bool) : List Goal → Goal
  | [] => .constant conjunction
  | [goal] => goal
  | goals => if conjunction then .and goals else .or goals

/-- A leaf of a numeric expression under the bindings of the enclosing quantifiers. It is
unresolved if it reads a numeric variable that does not exist. -/
def resolveQuantity (vars : VariableTable) (bindings : List ObjectId) :
    PartialQuantity → OptionT (Except Error) PartialQuantity
  | .number x => return .number x
  | .var v => return .var v
  | .ungrounded function arguments => do
    let objects ← (arguments.mapM (resolve bindings) : Except Error _)
    let var ← OptionT.mk (pure (vars.var? function objects))
    match vars.get? var.index with
    | some v => if v.isNumeric then return .var var else failure
    | none => failure
  | .term t => return .term (.object (← (resolve bindings t : Except Error _)))

/-- The instance of a function application. -/
def instantiateFluent (setting : Setting) (vars : VariableTable) (bindings : List ObjectId)
    (function : FunctionId) (arguments : List PartialTerm) (value : PartialTerm) (equal : Bool) :
    Except Error (Option Goal) := do
  let objects ← arguments.mapM (resolve bindings)
  let value ← resolve bindings value
  match vars.var? function objects with
  | some var => return some (.fluent var value equal)
  | none =>
    if setting.task.isPredicate function then
      return some (.constant ((value == .falsity) == equal))
    else return none

/-- The instance of a comparison, decided if both sides are numbers. -/
def instantiateCompare (vars : VariableTable) (bindings : List ObjectId)
    (comparator : Comparator) (terms : List (Expression PartialQuantity)) :
    Except Error (Option Goal) := do
  let terms? ← (terms.mapM (Expression.mapM (resolveQuantity vars bindings))).run
  match terms? with
  | none => return none
  | some [.atom (.number l), .atom (.number r)] =>
    return some (.constant (comparator.holds l r))
  | some terms => return some (.compare comparator terms)

/-- The instance of an implication, given that of its premise. -/
def implyGoal (premise : Goal) (conclusion : Unit → Except Error (Option Goal)) :
    Except Error (Option Goal) :=
  match premise with
  | .constant false => return some (.constant true)
  | .constant true => conclusion ()
  | premise => do
    match ← conclusion () with
    | none => return none
    | some (.constant true) => return some (.constant true)
    | some (.constant false) => return some (.not premise)
    | some conclusion => return some (.or [.not premise, conclusion])

/-- The conjunction or disjunction of the instances of a goal. Instances are looked at in order
until one decides the result; unresolved ones are left out, but if there are instances and all
are unresolved, so is the result. `unresolved` says whether that is still possible. -/
def instantiateOver (conjunction : Bool)
    (instantiate : List ObjectId → Except Error (Option Goal)) :
    List (List ObjectId) → Bool → List Goal → Except Error (Option Goal)
  | [], unresolved, terms =>
    return if unresolved then none else some (combineGoals conjunction terms)
  | combination :: rest, unresolved, terms => do
    match ← instantiate combination with
    | none => instantiateOver conjunction instantiate rest unresolved terms
    | some (.constant holds) =>
      if holds != conjunction then return some (.constant holds)
      else instantiateOver conjunction instantiate rest false terms
    | some goal => instantiateOver conjunction instantiate rest false (terms ++ [goal])

mutual

/-- Replaces quantifiers and symbolic terms under the bindings of the enclosing quantifiers, and
simplifies. The result is `none` if the goal is unresolved. -/
def instantiate (setting : Setting) (vars : VariableTable) (bindings : List ObjectId) :
    Goal → Except Error (Option Goal)
  | .fluent var value equal => return some (.fluent var value equal)
  | .constant holds => return some (.constant holds)
  | .ungroundedFluent function arguments value equal =>
    instantiateFluent setting vars bindings function arguments value equal
  | .and goals => instantiateAll setting vars bindings true goals []
  | .or goals => instantiateAll setting vars bindings false goals []
  | .not goal => do
    match ← instantiate setting vars bindings goal with
    | none => return none
    | some (.constant holds) => return some (.constant (!holds))
    | some goal => return some (.not goal)
  | .imply premise conclusion => do
    match ← instantiate setting vars bindings premise with
    | none => return none
    | some premise =>
      implyGoal premise fun _ => instantiate setting vars bindings conclusion
  | .existential types goal =>
    let instances := combinations setting types
    instantiateOver false (fun c => instantiate setting vars (bindings ++ c) goal) instances
      (!instances.isEmpty) []
  | .universal types goal =>
    let instances := combinations setting types
    instantiateOver true (fun c => instantiate setting vars (bindings ++ c) goal) instances
      (!instances.isEmpty) []
  | .equality equal left right => do
    let left ← resolve bindings left
    let right ← resolve bindings right
    return some (.constant ((left == right) == equal))
  | .compare comparator terms => instantiateCompare vars bindings comparator terms
  | .timed time goal => do
    match ← instantiate setting vars bindings goal with
    | none => return none
    | some (.constant holds) => return some (.constant holds)
    | some goal => return some (.timed time goal)

/-- The conjunction or disjunction of a list of goals, of which `terms` are the ones already
looked at that are left open. An unresolved goal makes the result unresolved, unless an earlier
goal decides it. -/
def instantiateAll (setting : Setting) (vars : VariableTable) (bindings : List ObjectId)
    (conjunction : Bool) : List Goal → List Goal → Except Error (Option Goal)
  | [], terms => return some (combineGoals conjunction terms)
  | goal :: rest, terms => do
    match ← instantiate setting vars bindings goal with
    | none => return none
    | some (.constant holds) =>
      if holds != conjunction then return some (.constant holds)
      else instantiateAll setting vars bindings conjunction rest terms
    | some goal => instantiateAll setting vars bindings conjunction rest (terms ++ [goal])

end

/-! ## Constraints -/

/-- Grounds a goal of a constraint and eliminates its quantifiers. -/
def groundConstraintGoal (setting : Setting) (arguments : List ObjectId) (goal : Lifted.Goal) :
    Step (Option Goal) := do
  let goal ← groundGoal setting.task arguments goal
  let state ← get
  (instantiate setting state.vars [] goal : Except Error _)

/-- The results of a step for a list, as far as they exist. -/
def collect {α β : Type} (f : α → Step (Option β)) : List α → Step (List β)
  | [] => return []
  | a :: rest => do
    match ← f a with
    | some b => return b :: (← collect f rest)
    | none => collect f rest

/-- The results of a step for a list, up to the first one that does not exist. -/
def collectAll {α β : Type} (f : α → Step (Option β)) : List α → Step (Option (List β))
  | [] => return some []
  | a :: rest => do
    match ← f a with
    | some b => return (← collectAll f rest).map (b :: ·)
    | none => return none

/-- The conjunction of several instances of a constraint. -/
def combineConstraints : List Constraint → Option Constraint
  | [] => none
  | [constraint] => some constraint
  | constraints => some (.and constraints)

mutual

/-- Grounds a constraint; an unresolved one comes to nothing. A quantified constraint holds for
the instances that can be resolved. -/
def groundConstraint (setting : Setting) (arguments : List ObjectId) :
    Lifted.Constraint → Step (Option Constraint)
  | .and constraints => do
    match ← groundConstraints setting arguments constraints with
    | none => return none
    | some [constraint] => return some constraint
    | some constraints => return some (.and constraints)
  | .universal parameters constraint => do
    let instances := combinations setting (parameters.map (·.types))
    let constraints ←
      collect (fun c => groundConstraint setting (arguments ++ c) constraint) instances
    return combineConstraints constraints
  | .preference name constraint => do
    let nameIndex ← preferenceIndex name
    return (← groundConstraint setting arguments constraint).map (.preference nameIndex)
  | .goalPreference name goal => do
    let nameIndex ← preferenceIndex name
    return (← groundConstraintGoal setting arguments goal).map (.goalPreference nameIndex)
  | .temporal modality times goals => do
    return (← collectAll (groundConstraintGoal setting arguments) goals).map
      (.temporal modality times)

/-- Grounds a list of constraints up to the first one that is unresolved. -/
def groundConstraints (setting : Setting) (arguments : List ObjectId) :
    List Lifted.Constraint → Step (Option (List Constraint))
  | [] => return some []
  | constraint :: rest => do
    match ← groundConstraint setting arguments constraint with
    | none => return none
    | some constraint => return (← groundConstraints setting arguments rest).map (constraint :: ·)

end

end TemporalPlanning.Grounding
