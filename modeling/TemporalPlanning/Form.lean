import TemporalPlanning.Arithmetic.Expression
import TemporalPlanning.Error
import TemporalPlanning.Lifted.Basic
/-!
Constructor form of values.

Some messages and texts show a value exactly as it is built: the name of a constructor, its
arguments in parentheses or its fields in braces, and lists in brackets.
-/
set_option autoImplicit false

namespace TemporalPlanning

namespace Form

/-- Items separated by commas. -/
def separated (items : List String) : String := ", ".intercalate items

/-- A list. -/
def list (items : List String) : String := "[" ++ separated items ++ "]"

/-- A constructor applied to arguments. -/
def applied (name : String) (arguments : List String) : String :=
  name ++ "(" ++ separated arguments ++ ")"

/-- A constructor with named fields. -/
def record (name : String) (fields : List (String × String)) : String :=
  name ++ " \x7b " ++ separated (fields.map fun field => field.1 ++ ": " ++ field.2) ++ " \x7d"

/-- A truth value. -/
def bool (b : Bool) : String := if b then "true" else "false"

/-- A number, recognisable as a fractional one. -/
def number (x : Float) : String := Decimal.render Decimal.marked x

end Form

open Form

def TypeId.form (i : TypeId) : String := positionLabel "TypeId" i.index
def ObjectId.form (i : ObjectId) : String := positionLabel "ObjectId" i.index
def FunctionId.form (i : FunctionId) : String := positionLabel "FunctionId" i.index
def VarId.form (i : VarId) : String := positionLabel "VarId" i.index

def Comparator.form : Comparator → String
  | .eq => "Eq"
  | .less => "Less"
  | .lessEq => "LessEq"
  | .greater => "Greater"
  | .greaterEq => "GreaterEq"
  | .neq => "Neq"

def TimePoint.form : TimePoint → String
  | .atStart => "AtStart"
  | .atEnd => "AtEnd"
  | .overAll => "OverAll"
  | .unspecified => "None"

def Operation.form : Operation → String
  | .sum => "Sum"
  | .difference => "Sub"
  | .product => "Mul"
  | .quotient => "Div"

/-- An expression, given the form of its atoms. -/
def Expression.form {α : Type} (leaf : α → String) (e : Expression α) : String :=
  e.fold leaf fun op operands => applied op.form [list operands]

/-- The value of an operation whose operands have been evaluated. A division by zero is reported
with the form of the operation. -/
def Expression.combine {α β : Type} [Arithmetic α] (leaf : β → String) (op : Operation)
    (operands : List (Expression β)) (values : List α) : Except Error α :=
  match op.value? values with
  | some value => .ok value
  | none => .error (.divisionByZero (Expression.form leaf (.node op operands)))

end TemporalPlanning
