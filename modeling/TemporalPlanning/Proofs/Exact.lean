import Mathlib.Algebra.BigOperators.Group.List.Basic
import Mathlib.Algebra.Order.Field.Rat
import Mathlib.Tactic.Ring
import TemporalPlanning.Arithmetic.Operation
/-!
Exact arithmetic.

Read over rational numbers, numerals stand for exactly the number that the float is, and operations
do not round. Operations then are sums, differences, products and quotients of lists.
-/
set_option autoImplicit false

namespace TemporalPlanning

open Float.Model (UnpackedFloat)

/-- The number that a float is, zero if it is none. -/
def exactOf (x : Float) : ℚ :=
  match x.toModel.unpack with
  | .finite .positive mantissa exponent _ => mantissa * 2 ^ exponent
  | .finite .negative mantissa exponent _ => -(mantissa * 2 ^ exponent)
  | .infinity _ | .notANumber | .zero _ => 0

instance : Arithmetic ℚ where
  ofFloat := exactOf
  add := (· + ·)
  sub := (· - ·)
  mul := (· * ·)
  div := (· / ·)
  neg := (- ·)
  eq x y := decide (x = y)
  lt x y := decide (x < y)
  le x y := decide (x ≤ y)

theorem exactOf_zero : exactOf 0.0 = 0 := by decide +kernel

/-- The sign of zero is lost. -/
theorem exactOf_neg_zero : exactOf (-0.0) = 0 := by decide +kernel

theorem exactOf_one : exactOf 1.0 = 1 := by decide +kernel

namespace Operation

variable {xs : List ℚ} {x y : ℚ}

/-- No operands have the value `0.0` and others are added to `-0.0`, which is the same here. -/
theorem value?_sum : sum.value? xs = some xs.sum := by
  cases xs with
  | nil => exact congrArg some exactOf_zero
  | cons x xs =>
    show some ((x :: xs).foldl (· + ·) (exactOf (-0.0))) = _
    rw [exactOf_neg_zero, List.sum_eq_foldl]

/-- No operands have the value `0.0`, unlike the product of no numbers. -/
theorem value?_product (h : xs ≠ []) : product.value? xs = some xs.prod := by
  cases xs with
  | nil => exact absurd rfl h
  | cons x xs =>
    show some ((x :: xs).foldl (· * ·) (exactOf 1.0)) = _
    rw [exactOf_one, List.prod_eq_foldl]

/-- Numbers that are subtracted one after the other can be added first, which takes exactness:
floats round after every step. -/
theorem foldl_sub : xs.foldl (· - ·) x = x - xs.sum := by
  induction xs generalizing x with
  | nil => rw [List.foldl_nil, List.sum_nil, sub_zero]
  | cons y xs ih =>
    rw [List.foldl_cons, ih, List.sum_cons]
    ring

/-- Likewise divisors can be multiplied first, zero among them. -/
theorem foldl_div : xs.foldl (· / ·) x = x / xs.prod := by
  induction xs generalizing x with
  | nil => rw [List.foldl_nil, List.prod_nil, div_one]
  | cons y xs ih =>
    rw [List.foldl_cons, ih, List.prod_cons, div_div]

/-- A single operand of a difference is negated. -/
theorem value?_difference_cons :
    difference.value? (x :: xs) = some (if xs.isEmpty then -x else x - xs.sum) := by
  show some (if xs.isEmpty then -x else xs.foldl (· - ·) x) = _
  rw [foldl_sub]

/-- A quotient that has a value is one by the product of the divisors. -/
theorem value?_quotient_cons (h : quotient.value? (x :: xs) = some y) : y = x / xs.prod := by
  -- the divisors are tested for zero before anything is divided
  have hvalue : (if xs.any fun divisor => Arithmetic.eq divisor (exactOf 0.0) then none
      else some (xs.foldl (· / ·) x)) = some y := h
  split at hvalue
  · cases hvalue
  · rw [← Option.some.inj hvalue, foldl_div]

end Operation

end TemporalPlanning
