import TemporalPlanning.Proofs.Execution
import TemporalPlanning.Proofs.Expression
/-!
What conditions, expressions and goals mean.

A situation gives variables objects and numbers as their values. An expression has a value in it
unless it reads something without a number or divides by zero, and a comparison of two expressions
that have values is decided. So are goals, as long as all their comparisons are: a goal that
compares something without a value, or that still refers to parameters of quantifiers, is neither
true nor false. Goals may be tied to time points of an action, so they are read in one situation for
each time point.

Numbers may be of any kind that tasks can be evaluated in.
-/
set_option autoImplicit false

namespace TemporalPlanning

/-- Whether two values compare as stated, if both exist. -/
def Comparator.decide? {α : Type} [Arithmetic α] (comparator : Comparator) :
    List (Option α) → Option Bool
  | [some left, some right] => some (comparator.holds left right)
  | _ => none

namespace Grounded

/-- The objects and numbers that variables have as their values. -/
structure Situation (α : Type) where
  objects : Valuation
  numbers : Values VarId α

/-- A situation for each time point of an action. -/
abbrev Situations (α : Type) := TimePoint → Situation α

section

variable {α : Type} [Arithmetic α]

/-! ## Expressions -/

/-- The number of a leaf of an expression. The duration of an action may be unknown. -/
def Quantity.valueIn (x : Situation α) (duration : Option α) : Quantity → Option α
  | .number n => some (Arithmetic.ofFloat n)
  | .var v => x.numbers v
  | .object _ => none
  | .duration | .elapsed => duration

/-- The number of a leaf of an expression in a goal. -/
def PartialQuantity.valueIn (x : Situation α) : PartialQuantity → Option α
  | .number n => some (Arithmetic.ofFloat n)
  | .var v => x.numbers v
  | .ungrounded .. | .term _ => none

/-- The value of an expression of an action. -/
def valueOf (x : Situation α) (duration : Option α) (e : Expression Quantity) : Option α :=
  e.value? (Quantity.valueIn x duration)

/-- The value of an expression of a goal. -/
def valueInGoal (x : Situation α) (e : Expression PartialQuantity) : Option α :=
  e.value? (PartialQuantity.valueIn x)

/-! ## Conditions and goals -/

/-- Whether a numeric condition holds. -/
def NumericCondition.truth? (x : Situation α) (duration : Option α) (c : NumericCondition) :
    Option Bool :=
  c.comparator.decide? (c.terms.map (valueOf x duration))

namespace Goal

mutual

/-- Whether a goal holds. What is not tied to a time point is read at the given one. -/
def truth? (t : Task) (x : Situations α) (time : TimePoint) : Goal → Option Bool
  | .fluent v o equal => some (decide (t.Holds (x time).objects ⟨v, o⟩) == equal)
  | .and goals => (truths? t x time goals).map fun truths => truths.all id
  | .or goals => (truths? t x time goals).map fun truths => truths.any id
  | .not goal => (truth? t x time goal).map (!·)
  | .imply premise conclusion => do
    let premise ← truth? t x time premise
    let conclusion ← truth? t x time conclusion
    return !premise || conclusion
  | .equality equal (.object left) (.object right) => some ((left == right) == equal)
  | .compare comparator terms => comparator.decide? (terms.map (valueInGoal (x time)))
  | .timed time goal => truth? t x time goal
  | .constant holds => some holds
  | .equality .. | .ungroundedFluent .. | .existential .. | .universal .. => none

/-- Whether each goal of a list holds, if all are decided. -/
def truths? (t : Task) (x : Situations α) (time : TimePoint) : List Goal → Option (List Bool)
  | [] => some []
  | goal :: rest => do
    let first ← truth? t x time goal
    let others ← truths? t x time rest
    return first :: others

end

end Goal

end

/-! ## Variables that are referred to -/

/-- The variables that an expression of a goal reads. -/
def partialVarsOf (e : Expression PartialQuantity) : List VarId :=
  e.atoms.filterMap fun
    | .var v => some v
    | .number _ | .ungrounded .. | .term _ => none

mutual

/-- The variables that a goal refers to. -/
def Goal.variables : Goal → List VarId
  | .fluent v _ _ => [v]
  | .and goals | .or goals => Goal.variablesOfList goals
  | .not goal | .timed _ goal | .existential _ goal | .universal _ goal => goal.variables
  | .imply premise conclusion => premise.variables ++ conclusion.variables
  | .compare _ terms => terms.flatMap partialVarsOf
  | .ungroundedFluent .. | .equality .. | .constant _ => []

/-- The variables that a list of goals refers to. -/
def Goal.variablesOfList : List Goal → List VarId
  | [] => []
  | goal :: rest => goal.variables ++ Goal.variablesOfList rest

end

/-- The variables that an action refers to. -/
def Action.variables (a : Action) : List VarId :=
  a.durations.flatMap (fun d => varsOf d.expression)
    ++ (a.conditions ++ a.effects).map (·.var)
    ++ a.numericConditions.flatMap (fun c => c.terms.flatMap varsOf)
    ++ a.numericEffects.flatMap (fun e => e.var :: varsOf e.expression)
    ++ a.preferences.flatMap fun p => p.goal.variables

end Grounded

end TemporalPlanning
