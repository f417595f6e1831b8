import TemporalPlanning.Json.Format
/-!
Arithmetic of planning tasks.

Numbers are floats when a task is processed. The operations are written over `Arithmetic`, so the
same definitions can be read over exact numbers: `ofFloat` says what the numerals of a task stand
for. Operands are combined from the left; a sum starts at negative zero, which is neutral for
floats, and an operation without operands is zero.
-/
set_option autoImplicit false

namespace TemporalPlanning

/-- Numbers that tasks can be evaluated in. -/
class Arithmetic (α : Type) where
  ofFloat : Float → α
  add : α → α → α
  sub : α → α → α
  mul : α → α → α
  div : α → α → α
  neg : α → α
  eq : α → α → Bool
  lt : α → α → Bool
  le : α → α → Bool

instance : Arithmetic Float where
  ofFloat x := x
  add := (· + ·)
  sub := (· - ·)
  mul := (· * ·)
  div := (· / ·)
  neg := (- ·)
  eq := (· == ·)
  lt x y := decide (x < y)
  le x y := decide (x ≤ y)

open Arithmetic

/-! ## Comparisons -/

/-- A comparison of two numbers. -/
inductive Comparator where
  | eq
  | less
  | lessEq
  | greater
  | greaterEq
  | neq
deriving DecidableEq

namespace Comparator

def all : List Comparator := [.eq, .less, .lessEq, .greater, .greaterEq, .neq]

/-- Name in documents. -/
def name : Comparator → String
  | .eq => "eq"
  | .less => "less"
  | .lessEq => "less_eq"
  | .greater => "greater"
  | .greaterEq => "greater_eq"
  | .neq => "neq"

/-- The symbol of a comparison. -/
def symbol : Comparator → String
  | .eq => "="
  | .less => "<"
  | .lessEq => "<="
  | .greater => ">"
  | .greaterEq => ">="
  | .neq => "!="

instance : Format Comparator := ⟨fun c => .string c.name, Json.named? all name⟩

/-- Whether two numbers compare as stated. An undefined number is only unequal to others. -/
def holds {α : Type} [Arithmetic α] : Comparator → α → α → Bool
  | .eq, left, right => Arithmetic.eq left right
  | .less, left, right => lt left right
  | .lessEq, left, right => le left right
  | .greater, left, right => lt right left
  | .greaterEq, left, right => le right left
  | .neq, left, right => !Arithmetic.eq left right

/-- The comparison that holds of two defined numbers when this one does not. -/
def negated : Comparator → Comparator
  | .eq => .neq
  | .less => .greaterEq
  | .lessEq => .greater
  | .greater => .lessEq
  | .greaterEq => .less
  | .neq => .eq

end Comparator

/-! ## Assignments -/

/-- How a numeric effect changes a variable. -/
inductive Assignment where
  | assign
  | increase
  | decrease
  | scaleUp
  | scaleDown
deriving DecidableEq

namespace Assignment

def all : List Assignment := [.assign, .increase, .decrease, .scaleUp, .scaleDown]

/-- Name in documents. -/
def name : Assignment → String
  | .assign => "assign"
  | .increase => "increase"
  | .decrease => "decrease"
  | .scaleUp => "scale_up"
  | .scaleDown => "scale_down"

/-- Keyword in texts. -/
def keyword : Assignment → String
  | .assign => "assign"
  | .increase => "increase"
  | .decrease => "decrease"
  | .scaleUp => "scale-up"
  | .scaleDown => "scale-down"

instance : Format Assignment := ⟨fun a => .string a.name, Json.named? all name⟩

/-- The new value of a variable. -/
def apply {α : Type} [Arithmetic α] : Assignment → α → α → α
  | .assign, _, value => value
  | .increase, current, value => add current value
  | .decrease, current, value => sub current value
  | .scaleUp, current, value => mul current value
  | .scaleDown, current, value => div current value

end Assignment

/-! ## Operations -/

/-- An operation on any number of operands. -/
inductive Operation where
  | sum
  | difference
  | product
  | quotient
deriving DecidableEq

namespace Operation

/-- Name in documents. -/
def name : Operation → String
  | .sum => "sum"
  | .difference => "sub"
  | .product => "mul"
  | .quotient => "div"

/-- The operation with a name. -/
def ofName? : String → Option Operation
  | "sum" => some .sum
  | "sub" => some .difference
  | "mul" => some .product
  | "div" => some .quotient
  | _ => none

/-- The symbol of an operation. -/
def symbol : Operation → String
  | .sum => "+"
  | .difference => "-"
  | .product => "*"
  | .quotient => "/"

/-- The value of an operation, `none` if a divisor is zero. A difference of one operand is its
opposite. -/
def value? {α : Type} [Arithmetic α] (op : Operation) : List α → Option α
  | [] => some (ofFloat 0.0)
  | first :: rest =>
    match op with
    | .sum => some ((first :: rest).foldl add (ofFloat (-0.0)))
    | .difference => some (if rest.isEmpty then neg first else rest.foldl sub first)
    | .product => some ((first :: rest).foldl mul (ofFloat 1.0))
    | .quotient =>
      if rest.any fun divisor => Arithmetic.eq divisor (ofFloat 0.0) then none
      else some (rest.foldl div first)

end Operation

end TemporalPlanning
