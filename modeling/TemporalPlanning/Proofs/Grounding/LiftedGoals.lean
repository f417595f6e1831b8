import TemporalPlanning.Proofs.Grounding.Closure
import TemporalPlanning.Proofs.Truth
/-!
Lifted goals that hold.

A situation gives functions applied to objects their values. A goal is read under objects for the
parameters around it, those of its quantifiers included: a quantifier binds its parameters behind
the ones that are bound already, to objects of their types. Objects can only be compared for
equality. What compares something without a value does not hold.

The values of variables make a situation, in which a predicate without a variable is false.
-/
set_option autoImplicit false

namespace TemporalPlanning.Lifted

open Grounding

/-! ## Situations -/

/-- The objects and numbers that functions applied to objects have as their values. -/
structure Situation where
  objects : Values (FunctionId × List ObjectId) ObjectId
  numbers : Values (FunctionId × List ObjectId) Float

/-- A situation for each time point of an action. -/
abbrev Situations := TimePoint → Situation

/-- The function that a literal applies, with the objects that it is applied to. -/
def Literal.applied (l : Literal) (objects : List ObjectId) : FunctionId × List ObjectId :=
  (l.function, l.arguments.map (denote objects))

/-- Objects for parameters of quantifiers or constructs around a goal. -/
def Task.Admits (task : Task) (parameters : List Parameter) (objects : List ObjectId) : Prop :=
  List.Forall₂ (fun p o => (Setting.ofTask task).admits p.types o = true) parameters objects

section

variable (task : Task)

/-! ## Sides of comparisons -/

/-- The number of a leaf of an expression. -/
def Quantity.numberIn (y : Situation) (objects : List ObjectId) : Quantity → Option Float
  | .number x => some x
  | .fluent l => if task.isNumeric l.function then y.numbers (l.applied objects) else none
  | .term _ | .duration | .elapsed => none

/-- The object that an expression denotes. -/
def objectIn (y : Situation) (objects : List ObjectId) : Expression Quantity → Option ObjectId
  | .atom (.term t) => some (denote objects t)
  | .atom (.fluent l) =>
    if task.isNumeric l.function then none else y.objects (l.applied objects)
  | _ => none

/-- A comparison holds of two numbers, or an equation or inequality holds of two objects. -/
def Compares (y : Situation) (objects : List ObjectId) (comparator : Comparator)
    (left right : Expression Quantity) : Prop :=
  comparator.decide?
      [left.value? (Quantity.numberIn task y objects),
        right.value? (Quantity.numberIn task y objects)] = some true ∨
    ∃ l r, objectIn task y objects left = some l ∧ objectIn task y objects right = some r ∧
      ((comparator = .eq ∧ l = r) ∨ (comparator = .neq ∧ l ≠ r))

/-! ## Goals that hold -/

namespace Goal

mutual

/-- A goal holds under objects for its parameters. What is not tied to a time point is read at the
given one. -/
def Holds (x : Situations) (time : TimePoint) (objects : List ObjectId) : Goal → Prop
  | .literal l => (x time).objects (l.applied objects) = some .truth
  | .negLiteral l => (x time).objects (l.applied objects) = some .falsity
  | .and goals => HoldsAll x time objects goals
  | .or goals => HoldsAny x time objects goals
  | .not goal => ¬Holds x time objects goal
  | .imply premise conclusion => Holds x time objects premise → Holds x time objects conclusion
  | .existential parameters goal =>
    ∃ more, task.Admits parameters more ∧ Holds x time (objects ++ more) goal
  | .universal parameters goal =>
    ∀ more, task.Admits parameters more → Holds x time (objects ++ more) goal
  | .compare comparator left right => Compares task (x time) objects comparator left right
  | .equality left right => denote objects left = denote objects right
  | .inequality left right => denote objects left ≠ denote objects right
  | .timed time goal => Holds x time objects goal

/-- All goals of a list hold. -/
def HoldsAll (x : Situations) (time : TimePoint) (objects : List ObjectId) : List Goal → Prop
  | [] => True
  | goal :: rest => Holds x time objects goal ∧ HoldsAll x time objects rest

/-- Some goal of a list holds. -/
def HoldsAny (x : Situations) (time : TimePoint) (objects : List ObjectId) : List Goal → Prop
  | [] => False
  | goal :: rest => Holds x time objects goal ∨ HoldsAny x time objects rest

end

section

variable {task} {x : Situations} {time : TimePoint} {objects : List ObjectId}

theorem holdsAll_iff {goals : List Goal} :
    HoldsAll task x time objects goals ↔ ∀ g ∈ goals, g.Holds task x time objects := by
  induction goals with
  | nil => simp [HoldsAll]
  | cons g goals ih => rw [HoldsAll, ih, List.forall_mem_cons]

theorem holdsAny_iff {goals : List Goal} :
    HoldsAny task x time objects goals ↔ ∃ g ∈ goals, g.Holds task x time objects := by
  induction goals with
  | nil => simp [HoldsAny]
  | cons g goals ih => rw [HoldsAny, ih, List.exists_mem_cons_iff]

end

end Goal

/-! ## Kinds -/

/-- A leaf of a numeric expression of a goal: its function is numeric, and it does not depend on the
duration of an action. -/
def Quantity.IsNumeric : Quantity → Prop
  | .fluent l => task.isNumeric l.function = true
  | .number _ | .term _ => True
  | .duration | .elapsed => False

instance Quantity.decidableIsNumeric : DecidablePred (Quantity.IsNumeric task)
  | .fluent l => inferInstanceAs (Decidable (task.isNumeric l.function = true))
  | .number _ | .term _ => .isTrue trivial
  | .duration | .elapsed => .isFalse id

/-- An equation or inequality of a function that is not numeric with a term. -/
def ComparesObjects (comparator : Comparator) : Expression Quantity → Expression Quantity → Prop
  | .atom (.fluent l), .atom (.term _) | .atom (.term _), .atom (.fluent l) =>
    (comparator = .eq ∨ comparator = .neq) ∧ task.isNumeric l.function = false
  | _, _ => False

namespace Goal

mutual

/-- Literals and comparisons of objects are about functions that are not numeric, and all other
comparisons about numeric ones. -/
def RespectsKinds : Goal → Prop
  | .literal l | .negLiteral l => task.isNumeric l.function = false
  | .and goals | .or goals => RespectKinds goals
  | .not goal | .existential _ goal | .universal _ goal | .timed _ goal => RespectsKinds goal
  | .imply premise conclusion => RespectsKinds premise ∧ RespectsKinds conclusion
  | .compare comparator left right => ComparesObjects task comparator left right ∨
    ∀ q ∈ left.atoms ++ right.atoms, q.IsNumeric task
  | .equality .. | .inequality .. => True

/-- All goals of a list respect kinds. -/
def RespectKinds : List Goal → Prop
  | [] => True
  | goal :: rest => RespectsKinds goal ∧ RespectKinds rest

end

end Goal

/-! ## Variables that must exist -/

variable (table : VariableTable)

/-- The function of a literal, applied to the objects, is a variable unless it is a predicate. -/
def Literal.HasVariable (objects : List ObjectId) (l : Literal) : Prop :=
  task.isPredicate l.function = true ∨
    ∃ v, table.var? l.function (l.arguments.map (denote objects)) = some v

/-- A leaf of an expression reads a variable that exists, if it reads any. -/
def Quantity.HasVariable (objects : List ObjectId) : Quantity → Prop
  | .fluent l => l.HasVariable task table objects
  | .number _ | .term _ | .duration | .elapsed => True

namespace Goal

mutual

/-- Every function that the goal applies to objects is a variable unless it is a predicate, whatever
objects of their types the parameters of quantifiers stand for. -/
def HasVariables (objects : List ObjectId) : Goal → Prop
  | .literal l | .negLiteral l => l.HasVariable task table objects
  | .and goals | .or goals => HaveVariables objects goals
  | .not goal | .timed _ goal => HasVariables objects goal
  | .imply premise conclusion => HasVariables objects premise ∧ HasVariables objects conclusion
  | .existential parameters goal | .universal parameters goal =>
    ∀ more, task.Admits parameters more → HasVariables (objects ++ more) goal
  | .compare _ left right =>
    ∀ q ∈ left.atoms ++ right.atoms, q.HasVariable task table objects
  | .equality .. | .inequality .. => True

/-- All goals of a list have their variables. -/
def HaveVariables (objects : List ObjectId) : List Goal → Prop
  | [] => True
  | goal :: rest => HasVariables objects goal ∧ HaveVariables objects rest

end

end Goal

end

end TemporalPlanning.Lifted

namespace TemporalPlanning.Grounding

/-- The values that functions have if those of variables are given. A predicate without a variable is
false. -/
def VariableTable.situation (table : VariableTable) (task : Lifted.Task)
    (y : Grounded.Situation Float) : Lifted.Situation where
  objects := fun (f, as) =>
    match table.var? f as with
    | some v => y.objects v
    | none => if task.isPredicate f then some .falsity else none
  numbers := fun (f, as) => (table.var? f as).bind y.numbers

end TemporalPlanning.Grounding
