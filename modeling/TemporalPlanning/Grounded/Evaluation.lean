import TemporalPlanning.Grounded.Form
/-!
Evaluation of grounded expressions without a state.

The value of an expression that reads a variable, an object or an unknown duration is unknown.
Operands are evaluated from the left, and the first one whose value is unknown makes the whole
expression unknown; a division by zero before it is an error.
-/
set_option autoImplicit false

namespace TemporalPlanning.Grounded

/-- The number, if the expression is one. -/
def number? : Expression Quantity → Option Float
  | .atom (.number x) => some x
  | _ => none

/-- The variables that an expression reads, in the order in which they are written. -/
def varsOf (e : Expression Quantity) : List VarId :=
  e.atoms.filterMap fun
    | .var v => some v
    | _ => none

/-- Whether an expression reads the duration of the action. -/
def dependsOnDuration (e : Expression Quantity) : Bool := e.atoms.contains .duration

namespace Quantity

/-- The value of a leaf for a possibly unknown duration. -/
def value? (duration : Option Float) : Quantity → Option Float
  | .number x => some x
  | .duration | .elapsed => duration
  | .var _ | .object _ => none

end Quantity

/-- The value of an expression, `none` if it is unknown. -/
def evaluate (duration : Option Float) (e : Expression Quantity) : Except Error (Option Float) :=
  OptionT.run <| e.foldM
    (fun q => OptionT.mk (pure (q.value? duration)))
    (fun op operands values => OptionT.lift (Expression.combine Quantity.form op operands values))

/-! ## Conditions on numbers -/

namespace NumericCondition

variable (c : NumericCondition)

/-- Whether a condition compares two numbers. -/
def isConstant : Bool :=
  match c.terms with
  | [.atom (.number _), .atom (.number _)] => true
  | _ => false

/-- Whether a condition compares two numbers and fails. -/
def isViolated : Bool :=
  match c.terms with
  | [.atom (.number l), .atom (.number r)] => !c.comparator.holds l r
  | _ => false

end NumericCondition

end TemporalPlanning.Grounded
