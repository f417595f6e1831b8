import TemporalPlanning.Form
/-!
Expressions over numeric variables.

A numeric state gives every numeric variable a number by its position. Expressions of actions also
read the duration of the action, which stands for the time since its start as well; the metric
reads the makespan instead, and violations of preferences count as zero. Evaluation is written
over `Arithmetic`, so costs can also be read over exact numbers.
-/
set_option autoImplicit false

namespace TemporalPlanning.FiniteDomain

/-- A leaf of an expression of an action or goal. -/
inductive Quantity where
  | number (x : Float)
  /-- The numeric variable at a position. -/
  | var (index : Nat)
  /-- The duration of the action. -/
  | duration
  /-- The time since the action started. -/
  | elapsed
deriving DecidableEq

/-- A leaf of a metric. -/
inductive Measure where
  | number (x : Float)
  /-- The makespan. -/
  | totalTime
  /-- Violations of the preference whose name has the given position. -/
  | isViolated (nameIndex : Nat)
  /-- The numeric variable at a position. -/
  | var (index : Nat)
deriving DecidableEq

/-! ## Variables that are read -/

/-- The numeric variables that an expression reads, in the order in which they are written. -/
def varsOf (e : Expression Quantity) : List Nat :=
  e.atoms.filterMap fun
    | .var v => some v
    | .number _ | .duration | .elapsed => none

/-- Whether a metric reads a numeric variable. -/
def measures (e : Expression Measure) (var : Nat) : Bool := e.atoms.contains (.var var)

/-- Whether a metric reads the makespan. -/
def measuresTime (e : Expression Measure) : Bool := e.atoms.contains .totalTime

/-! ## Evaluation -/

def Quantity.form : Quantity → String
  | .number x => Form.applied "Number" [Form.number x]
  | .var v => Form.applied "Var" [toString v]
  | .duration => "Duration"
  | .elapsed => "SharpT"

def Measure.form : Measure → String
  | .number x => Form.applied "Number" [Form.number x]
  | .totalTime => "TotalTime"
  | .isViolated i => Form.applied "IsViolated" [toString i]
  | .var v => Form.applied "Var" [toString v]

section Evaluation

variable {α : Type} [Arithmetic α]

/-- The number of a numeric variable. -/
def numberOf (state : Array α) (var : Nat) : Except Error α :=
  match state[var]? with
  | some x => .ok x
  | none => .error (.unknownVariable ("numeric variable " ++ toString var))

/-- The number of a leaf of an expression. -/
def Quantity.evaluate (state : Array α) (duration : α) : Quantity → Except Error α
  | .number x => .ok (Arithmetic.ofFloat x)
  | .var v => numberOf state v
  | .duration | .elapsed => .ok duration

/-- The number of a leaf of a metric. -/
def Measure.evaluate (state : Array α) (makespan : α) : Measure → Except Error α
  | .number x => .ok (Arithmetic.ofFloat x)
  | .totalTime => .ok makespan
  | .isViolated _ => .ok (Arithmetic.ofFloat 0.0)
  | .var v => numberOf state v

/-- The value of an expression of an action of the given duration. -/
def evaluate (state : Array α) (duration : α) (e : Expression Quantity) : Except Error α :=
  e.foldM (Quantity.evaluate state duration) (Expression.combine Quantity.form)

/-- The value of a metric at a makespan. -/
def evaluateMetric (state : Array α) (makespan : α) (e : Expression Measure) : Except Error α :=
  e.foldM (Measure.evaluate state makespan) (Expression.combine Measure.form)

end Evaluation

end TemporalPlanning.FiniteDomain
