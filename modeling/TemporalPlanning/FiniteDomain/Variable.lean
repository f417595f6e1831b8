import TemporalPlanning.Error
/-!
Variables of finite-domain tasks.

The domain of a variable is a list of values. The initial values of a variable are pairs of a
time and a value; time zero belongs to the initial state.

A fact, a variable having a value, is packed into one number: the variable in the upper and the
value in the lower 16 bits. So both positions are below `2 ^ 16`, and codes are ordered as the pairs
are, by variable first.
-/
set_option autoImplicit false

namespace TemporalPlanning.FiniteDomain

/-- A value of finite-domain variables. -/
structure Value where
  /-- Position in the value table. -/
  index : ValueId
  name : String
  /-- The function of the proposition that the value stands for, if any. -/
  function : Option FunctionId
deriving DecidableEq

/-- A finite-domain variable. -/
structure Variable where
  /-- Position in the variable table. -/
  index : Nat
  name : String
  domain : List ValueId
  initialValues : List (Float × ValueId)
deriving DecidableEq

/-- A numeric variable. -/
structure NumericVariable where
  /-- Position in the table of numeric variables. -/
  index : Nat
  name : String
  initialValues : List (Float × Float)
deriving DecidableEq

/-- The first value given for time zero. -/
def valueAtStart {α : Type} (initialValues : List (Float × α)) : Option α :=
  (initialValues.find? fun entry => entry.1 == 0.0).map Prod.snd

namespace Variable

variable (v : Variable)

/-- Whether a value is in the domain. -/
def hasValue (value : ValueId) : Bool := v.domain.contains value

/-- The position of a value in the domain. -/
def position? (value : ValueId) : Option Nat := v.domain.idxOf? value

/-- Adds a value at the end of the domain. -/
def addValue (value : ValueId) : Variable := { v with domain := v.domain ++ [value] }

/-- Adds the value for none of the others, unless it is in the domain already. -/
def allowUndefined : Variable :=
  if v.hasValue .undefined then v else v.addValue .undefined

/-- Takes a value out of the domain. The value for none of the others takes its place, unless it is
in the domain already. -/
def displace (value : ValueId) : Variable :=
  { v with
    domain :=
      if v.hasValue .undefined then v.domain.erase value else v.domain.replace value .undefined }

/-- Whether the domain consists of falsity and truth, in this order. -/
def isBoolean : Bool := v.domain == [.falsity, .truth]

/-- The other value of a domain of two values. -/
def opposite (value : ValueId) : Except Error ValueId :=
  match v.domain with
  | [a, b] =>
    if value = a then .ok b
    else if value = b then .ok a
    else .error (.invalidValue value.label v.name)
  | _ => .error (.noOppositeValue v.name)

/-- Gives the variable a value of its domain at a time, or the other value if the given one does
not hold then. -/
def addInitialValue (value : ValueId) (holds : Bool) (time : Float) : Except Error Variable := do
  unless v.hasValue value do throw (.invalidValue value.label v.name)
  let value ← if holds then pure value else v.opposite value
  return { v with initialValues := v.initialValues ++ [(time, value)] }

/-- The value at time zero. -/
def initialValue? : Option ValueId := valueAtStart v.initialValues

end Variable

namespace NumericVariable

variable (v : NumericVariable)

/-- Gives the variable a number at a time. A different number at the same time is an error. -/
def addInitialValue (number time : Float) : Except Error NumericVariable :=
  match v.initialValues.find? fun entry => entry.1 == time with
  | some (_, known) =>
    if known == number then .ok v else .error (.contradictoryInitialValue v.name number time)
  | none => .ok { v with initialValues := v.initialValues ++ [(time, number)] }

/-- The number at time zero, zero if there is none. -/
def initialValue : Float := (valueAtStart v.initialValues).getD 0.0

end NumericVariable

/-! ## Packed facts -/

/-- The number of variables, and of values, that codes can tell apart. -/
def capacity : Nat := Nat.pow 2 16

/-- The code of a variable having a value. -/
structure FactCode where
  code : Nat
deriving DecidableEq

namespace FactCode

/-- Packs a variable and a value, if both positions fit. -/
def pack (var : Nat) (value : ValueId) : Except Error FactCode :=
  if capacity ≤ var then .error (.capacityExceeded .vars var)
  else if capacity ≤ value.index then .error (.capacityExceeded .values value.index)
  else .ok ⟨var * capacity + value.index⟩

/-- The variable of a code. -/
def var (c : FactCode) : Nat := c.code / capacity

/-- The value of a code. -/
def value (c : FactCode) : ValueId := ⟨c.code % capacity⟩

/-- The pair as a text. -/
def text (c : FactCode) : String :=
  "(" ++ toString c.var ++ "=" ++ toString c.value.index ++ ")"

end FactCode

end TemporalPlanning.FiniteDomain
