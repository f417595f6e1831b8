import TemporalPlanning.Encoding.Placement
/-!
Initial values of the variables of a finite-domain task.

The values of a grounded variable are carried over to the place of the variable. A proposition
that is false at time zero says nothing about a variable that it shares with others; one that
becomes false later leaves none of them. A variable without a value at time zero is false if it is
boolean, and none of its propositions holds otherwise.
-/
set_option autoImplicit false

namespace TemporalPlanning.Encoding

open FiniteDomain

/-- A grounded task and the places of its variables. -/
structure Encoder where
  grounded : Grounded.Task
  isProposition : Array Bool
  placement : Placement

namespace Encoder

variable (enc : Encoder)

/-- The name of a grounded variable. -/
def nameOf (v : VarId) : String := enc.grounded.varName v

/-- The name of an object. -/
def objectName (o : ObjectId) : String := enc.grounded.task.objectName o

/-- Carries a value of a numeric variable over. -/
def setNumber (v : VarId) (var : Nat) (time : Float) (value : Value) : Update Unit :=
  match value.number? with
  | some x => updateNumericVariable var fun n => n.addInitialValue x time
  | none => throw (.invalidTask (.nonNumericInitialValue (enc.nameOf v)))

/-- Carries a value of a variable over objects over. -/
def setObject (v : VarId) (var : Nat) (time : Float) (value : Value) : Update Unit := do
  let name := (value.object?.map enc.objectName).getD "?"
  match (← get).value? name with
  | some x => updateVariable var fun y => y.addInitialValue x true time
  | none => throw (.invalidValue name (enc.nameOf v))

end Encoder

/-- A variable one of whose propositions holds or does not hold at a time. -/
def setProposition (value : ValueId) (holds : Bool) (time : Float) (v : Variable) :
    Except Error Variable :=
  if holds || v.isBoolean then v.addInitialValue value holds time
  else if 0.0 < time then v.allowUndefined.addInitialValue .undefined true time
  else .ok v

/-- A variable with a value at time zero. -/
def setDefault (v : Variable) : Except Error Variable :=
  if v.initialValue?.isSome then .ok v
  else if v.isBoolean then v.addInitialValue .truth false 0.0
  else v.allowUndefined.addInitialValue .undefined true 0.0

namespace Encoder

variable (enc : Encoder)

/-- Carries the initial values of a grounded variable over to its place. -/
def setInitial (v : Grounded.Variable) : Update Unit :=
  match enc.placement.numeric? v.index with
  | some var => v.initialValues.forM fun (time, value) => enc.setNumber v.index var time value
  | none =>
    match enc.placement.finite? v.index with
    | some var => v.initialValues.forM fun (time, value) => enc.setObject v.index var time value
    | none =>
      match enc.placement.fact? v.index with
      | some fact => v.initialValues.forM fun (time, value) =>
        updateVariable fact.var
          (setProposition fact.value (value.object? == some ObjectId.truth) time)
      | none => return

/-- Gives all variables their initial values. -/
def setInitialValues : Update Unit := do
  enc.grounded.vars.toList.forM enc.setInitial
  let vars ← liftExcept ((← get).vars.toList.mapM setDefault)
  modify fun t => { t with vars := vars.toArray }

end Encoder

end TemporalPlanning.Encoding
