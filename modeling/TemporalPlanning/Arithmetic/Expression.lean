import TemporalPlanning.Arithmetic.Operation
/-!
Expressions over any kind of atoms.

Conditions, effects, durations and metrics are all built from atoms by the same four operations
and differ only in what an atom is. One traversal, `foldM`, visits the operands from the left and
then the operation; evaluation, instantiation, substitution and printing are instances of it. The
text of an expression is a parenthesised list, as most texts of tasks are.
-/
set_option autoImplicit false

namespace TemporalPlanning

namespace Text

/-- A text whose lines all end with a line break. -/
def lines (texts : List String) : String := String.join (texts.map (· ++ "\n"))

/-- Items in parentheses, separated by blanks. -/
def parenthesised (items : List String) : String := "(" ++ " ".intercalate items ++ ")"

end Text

/-- An expression whose leaves are of type `α`. -/
inductive Expression (α : Type) where
  | atom (a : α)
  | node (op : Operation) (operands : List (Expression α))
deriving Inhabited

namespace Expression

variable {α β ν : Type} {m : Type → Type} [Monad m]

mutual

/-- Computes a result from the atoms up. `combine` also sees the operands themselves. -/
def foldM (leaf : α → m ν) (combine : Operation → List (Expression α) → List ν → m ν) :
    Expression α → m ν
  | .atom a => leaf a
  | .node op operands => do
    let results ← foldListM leaf combine operands
    combine op operands results

/-- The results of a list of expressions, computed from the left. -/
def foldListM (leaf : α → m ν) (combine : Operation → List (Expression α) → List ν → m ν) :
    List (Expression α) → m (List ν)
  | [] => pure []
  | e :: rest => do
    let result ← foldM leaf combine e
    let results ← foldListM leaf combine rest
    return result :: results

end

/-- Computes a result from the atoms up, without effects. -/
def fold (leaf : α → ν) (combine : Operation → List ν → ν) (e : Expression α) : ν :=
  Id.run (e.foldM (fun a => pure (leaf a)) fun op _ results => pure (combine op results))

/-- Replaces the atoms, from the left. -/
def mapM (f : α → m β) (e : Expression α) : m (Expression β) :=
  e.foldM (fun a => .atom <$> f a) fun op _ operands => pure (.node op operands)

/-- The atoms in the order in which they are written. -/
def atoms (e : Expression α) : List α := e.fold (fun a => [a]) fun _ parts => parts.flatten

/-- The text of an expression: an operation is a parenthesised list that starts with its
symbol. -/
def text (leaf : α → String) (e : Expression α) : String :=
  e.fold leaf fun op operands => Text.parenthesised (op.symbol :: operands)

/-- The document of an expression. -/
def toJson [Format α] (e : Expression α) : Json :=
  e.fold Format.write fun op operands => .record [(op.name, .array operands)]

/-- Reads an expression nested less than `fuel` deep. -/
def readWithin [Format α] : Nat → Json → Option (Expression α)
  | 0, _ => none
  | fuel + 1, j => do
    let c ← j.choice?
    match Operation.ofName? c.name with
    | some op => return .node op (← (← (← c.contents?).items?).mapM (readWithin fuel))
    | none => return .atom (← Format.read? j)

instance [Format α] : Format (Expression α) where
  write := toJson
  read? j := readWithin (j.depth + 1) j

end Expression

end TemporalPlanning
