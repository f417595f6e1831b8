import Std.Data.TreeSet
/-!
Positions in the tables of a planning task.

Types, objects, functions, grounded variables and finite-domain values live in tables and are
referred to by their position. Each table has a position type of its own, so an object is never
taken for a variable by accident. The first positions of some tables are reserved: type `0` holds
the truth values and type `1` the numbers, object `0` is false and object `1` is true, and the
values `0`, `1` and `2` of a finite-domain task are true, false and undefined. Sets of pairs of
positions are listed in lexicographic order.
-/
set_option autoImplicit false

namespace TemporalPlanning

/-- Position of a type in the type table of a task. -/
structure TypeId where
  index : Nat
deriving DecidableEq, Inhabited

/-- Position of an object in the object table of a task. -/
structure ObjectId where
  index : Nat
deriving DecidableEq, Inhabited

/-- Position of a predicate or function in the function table of a task. -/
structure FunctionId where
  index : Nat
deriving DecidableEq, Inhabited

/-- Position of a grounded variable. -/
structure VarId where
  index : Nat
deriving DecidableEq, Inhabited

/-- Position of a value in the value table of a finite-domain task. -/
structure ValueId where
  index : Nat
deriving DecidableEq, Inhabited

/-! ## Reserved positions -/

/-- The type of truth values. -/
def TypeId.boolean : TypeId := ⟨0⟩

/-- The type of numbers. -/
def TypeId.number : TypeId := ⟨1⟩

/-- The object that stands for falsity. -/
def ObjectId.falsity : ObjectId := ⟨0⟩

/-- The object that stands for truth. -/
def ObjectId.truth : ObjectId := ⟨1⟩

/-- Whether an object is one of the two truth values. -/
def ObjectId.isTruthValue (object : ObjectId) : Bool :=
  object == ObjectId.falsity || object == ObjectId.truth

/-- The value of a proposition that holds. -/
def ValueId.truth : ValueId := ⟨0⟩

/-- The value of a proposition that does not hold. -/
def ValueId.falsity : ValueId := ⟨1⟩

/-- The value of a variable none of whose propositions holds. -/
def ValueId.undefined : ValueId := ⟨2⟩

/-! ## Labels

An identifier that cannot be resolved to a name is shown by the kind of its table and its
position. -/

/-- A position with the name of its table, such as `Type(3)`. -/
def positionLabel (table : String) (index : Nat) : String :=
  table ++ "(" ++ toString index ++ ")"

def TypeId.label (i : TypeId) : String := positionLabel "Type" i.index
def ObjectId.label (i : ObjectId) : String := positionLabel "Object" i.index
def FunctionId.label (i : FunctionId) : String := positionLabel "Function" i.index
def VarId.label (i : VarId) : String := positionLabel "Var" i.index
def ValueId.label (i : ValueId) : String := positionLabel "Value" i.index

/-! ## Sets of pairs -/

/-- Pairs are compared by their first and then by their second components. -/
def comparePairs : Nat × Nat → Nat × Nat → Ordering := (lexOrd : Ord (Nat × Nat)).compare

instance : Std.TransCmp comparePairs :=
  inferInstanceAs (Std.TransCmp (lexOrd : Ord (Nat × Nat)).compare)

instance : Std.LawfulEqCmp comparePairs :=
  inferInstanceAs (Std.LawfulEqCmp (lexOrd : Ord (Nat × Nat)).compare)

/-- A set of pairs of positions. -/
abbrev PairSet := Std.TreeSet (Nat × Nat) comparePairs

end TemporalPlanning
