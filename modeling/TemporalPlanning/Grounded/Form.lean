import TemporalPlanning.Grounded.Basic
/-!
Constructor form of grounded expressions and goals.
-/
set_option autoImplicit false

namespace TemporalPlanning.Grounded

open Form

def Quantity.form : Quantity → String
  | .number x => applied "Number" [Form.number x]
  | .var v => applied "Var" [v.form]
  | .object o => applied "Object" [o.form]
  | .duration => "Duration"
  | .elapsed => "SharpT"

def PartialTerm.form : PartialTerm → String
  | .object o => applied "Object" [o.form]
  | .quantified i => applied "Quantified" [toString i]

def PartialQuantity.form : PartialQuantity → String
  | .number x => applied "Number" [Form.number x]
  | .var v => applied "Var" [v.form]
  | .ungrounded function arguments =>
    record "UngroundedVar"
      [("function", function.form), ("params", list (arguments.map PartialTerm.form))]
  | .term t => applied "Term" [t.form]

def Measure.form : Measure → String
  | .number x => applied "Number" [Form.number x]
  | .totalTime => "TotalTime"
  | .isViolated i => applied "IsViolated" [toString i]
  | .var v => applied "Var" [v.form]

namespace Goal

/-- The form of the types of quantified parameters. -/
def typesForm (types : List (List TypeId)) : String :=
  list (types.map fun valid => list (valid.map TypeId.form))

mutual

def form : Goal → String
  | .fluent var value equal =>
    record "Fluent" [("var", var.form), ("value", value.form), ("equal", bool equal)]
  | .ungroundedFluent function arguments value equal =>
    record "UngroundedFluent"
      [("function", function.form), ("params", list (arguments.map PartialTerm.form)),
        ("value", value.form), ("equal", bool equal)]
  | .and goals => applied "And" [list (forms goals)]
  | .or goals => applied "Or" [list (forms goals)]
  | .not goal => applied "Not" [goal.form]
  | .imply premise conclusion => applied "Imply" [premise.form, conclusion.form]
  | .existential types goal => record "Exists" [("types", typesForm types), ("goal", goal.form)]
  | .universal types goal => record "Forall" [("types", typesForm types), ("goal", goal.form)]
  | .equality equal left right =>
    record "Equality" [("equal", bool equal), ("left", left.form), ("right", right.form)]
  | .compare comparator terms =>
    record "Compare"
      [("comparator", comparator.form),
        ("terms", list (terms.map (Expression.form PartialQuantity.form)))]
  | .timed time goal => record "At" [("time", time.form), ("goal", goal.form)]
  | .constant holds => applied "Constant" [bool holds]

def forms : List Goal → List String
  | [] => []
  | goal :: rest => goal.form :: forms rest

end

end Goal

end TemporalPlanning.Grounded
