import TemporalPlanning.Decimal.Text
import TemporalPlanning.Identifier
/-!
What can go wrong while a task is read, grounded or encoded.

Only malformed input is an error. A construct that merely cannot be satisfied, such as an
unreachable condition, makes the actions that contain it disappear. Errors are causes; their
wording is `Error.message`.
-/
set_option autoImplicit false

namespace TemporalPlanning

/-- Why a task breaks the conventions of its tables or uses a construct where it has no
meaning. -/
inductive Defect where
  | reservedTypes
  | reservedObjects
  | unknownType (type : TypeId) (context : String)
  | unknownObject (object : ObjectId) (context : String)
  | unknownFunction (function : FunctionId) (context : String)
  | wrongArity (function : String) (expected given : Nat) (context : String)
  | unknownParameter (index : Nat) (context : String)
  | objectForNumeric (function : String)
  | numberForNonNumeric (function : String)
  | noOperands (context : String)
  | noMetricOperands
  | wrongShape (constraint : String) (goals times : Nat)
  | durationInGoal
  | nonNumericInitialValue (name : String)
  | objectInExpression (object : String)
  | unexpandedTerm (term : String)
  | unexpandedGoal (goal : String)
deriving DecidableEq

namespace Defect

/-- The wording of a defect. -/
def message : Defect → String
  | .reservedTypes => "types 0 and 1 must be #boolean and number"
  | .reservedObjects => "objects 0 and 1 must be #false and #true"
  | .unknownType type context => "unknown type " ++ type.label ++ " in " ++ context
  | .unknownObject object context => "unknown object " ++ object.label ++ " in " ++ context
  | .unknownFunction function context =>
    "unknown function " ++ function.label ++ " in " ++ context
  | .wrongArity function expected given context =>
    "function " ++ function ++ " takes " ++ toString expected ++ " arguments, "
      ++ toString given ++ " given in " ++ context
  | .unknownParameter index context => "unknown parameter ?" ++ toString index ++ " in " ++ context
  | .objectForNumeric function => "object value for numeric function " ++ function
  | .numberForNonNumeric function => "numeric value for non-numeric function " ++ function
  | .noOperands context => "operation without operands in " ++ context
  | .noMetricOperands => "metric operation without operands"
  | .wrongShape constraint goals times =>
    "constraint " ++ constraint ++ " expects " ++ toString goals ++ " goals and "
      ++ toString times ++ " time points"
  | .durationInGoal => "?duration and #t are not allowed in goals"
  | .nonNumericInitialValue name => "non-numeric initial value of " ++ name
  | .objectInExpression object => "object " ++ object ++ " in a numeric expression"
  | .unexpandedTerm term => "unexpanded term " ++ term ++ " in a goal"
  | .unexpandedGoal goal => "unexpanded goal " ++ goal

end Defect

/-- What ran out of space in the packed encoding. -/
inductive Packed where
  | vars
  | values
deriving DecidableEq

/-- The name of what ran out of space. -/
def Packed.name : Packed → String
  | .vars => "variables"
  | .values => "values"

/-- Why a task cannot be read, grounded or encoded. -/
inductive Error where
  | invalidTask (defect : Defect)
  /-- A metric, condition or effect refers to a variable that does not exist. -/
  | unknownVariable (name : String)
  /-- A quantified parameter is used outside of its quantifier. -/
  | unboundParameter (index : Nat)
  /-- An operation divides by zero. -/
  | divisionByZero (expression : String)
  /-- A value is not in the domain of its variable. -/
  | invalidValue (value name : String)
  /-- The opposite of a value is asked for in a domain that does not have two values. -/
  | noOppositeValue (name : String)
  /-- A numeric variable has two values at one time. -/
  | contradictoryInitialValue (name : String) (value time : Float)
  /-- There are more variables or values than a packed pair can address. -/
  | capacityExceeded (what : Packed) (index : Nat)
  /-- A text is not a document of the expected form. -/
  | unreadableDocument
  /-- A file cannot be opened or created. -/
  | inaccessibleFile
deriving DecidableEq

open Decimal in
/-- The wording of an error. -/
def Error.message : Error → String
  | .invalidTask defect => "invalid task: " ++ defect.message
  | .unknownVariable name => "unknown variable " ++ name
  | .unboundParameter index => "unbound quantified parameter ?" ++ toString index
  | .divisionByZero expression => "division by zero in " ++ expression
  | .invalidValue value name => "invalid value " ++ value ++ " for variable " ++ name
  | .noOppositeValue name =>
    "unable to negate a value of variable " ++ name ++ ", its domain is not two-valued"
  | .contradictoryInitialValue name value time =>
    "contradictory initial value " ++ render plain value ++ " at time " ++ render plain time
      ++ " for variable " ++ name
  | .capacityExceeded what index =>
    "too many " ++ what.name ++ " for the packed encoding (index " ++ toString index ++ ")"
  | .unreadableDocument => "the document cannot be read"
  | .inaccessibleFile => "the file cannot be accessed"

end TemporalPlanning
