import TemporalPlanning.FiniteDomain.Basic
import TemporalPlanning.Proofs.Truth
/-!
What goals of a finite-domain task mean.

They are read as those of grounded tasks: in one situation for each time point, and undecided if a
comparison reads something without a number or divides by zero.
-/
set_option autoImplicit false

namespace TemporalPlanning.FiniteDomain

/-- The values and numbers of finite-domain and numeric variables. -/
structure Situation (α : Type) where
  values : Values Nat ValueId
  numbers : Values Nat α

/-- A situation for each time point of an action. -/
abbrev Situations (α : Type) := TimePoint → Situation α

variable {α : Type} [Arithmetic α]

/-! ## Expressions -/

/-- The number of a leaf of an expression. The duration of an action may be unknown. -/
def Quantity.valueIn (x : Situation α) (duration : Option α) : Quantity → Option α
  | .number n => some (Arithmetic.ofFloat n)
  | .var v => x.numbers v
  | .duration | .elapsed => duration

/-- The value of an expression. -/
def valueOf (x : Situation α) (duration : Option α) (e : Expression Quantity) : Option α :=
  e.value? (Quantity.valueIn x duration)

/-! ## Goals -/

namespace Goal

mutual

/-- Whether a goal holds. What is not tied to a time point is read at the given one. -/
def truth? (x : Situations α) (time : TimePoint) : Goal → Option Bool
  | .fact var value => some (decide ((x time).values var = some value))
  | .constant holds => some holds
  | .and goals => (truths? x time goals).map fun truths => truths.all id
  | .or goals => (truths? x time goals).map fun truths => truths.any id
  | .not goal => (truth? x time goal).map (!·)
  | .compare comparator terms => comparator.decide? (terms.map (valueOf (x time) none))
  | .timed time goal => truth? x time goal

/-- Whether each goal of a list holds, if all are decided. -/
def truths? (x : Situations α) (time : TimePoint) : List Goal → Option (List Bool)
  | [] => some []
  | goal :: rest => do
    let first ← truth? x time goal
    let others ← truths? x time rest
    return first :: others

end

end Goal

end TemporalPlanning.FiniteDomain
