/-!
Value of a decimal numeral.

A numeral is read as a significand of at most 64 bits and a power of ten. Digits before the point
that no longer fit the significand only raise the power, digits after the point that no longer
fit are dropped. The significand is rounded to a float and scaled by a power of ten that is itself
a float, in steps of `10 ^ 308` for very small numbers. The result is exact for short numerals and
within a few units in the last place for long ones. A numeral too large for a float has no value.
-/
set_option autoImplicit false

namespace TemporalPlanning.Decimal

/-- The parts of a numeral as it is written. -/
structure Numeral where
  negative : Bool
  /-- Digits before the point. -/
  whole : List Nat
  /-- Digits after the point, if there is one. -/
  fraction? : Option (List Nat)
  /-- The written exponent, if there is one. -/
  exponent? : Option Int

/-- Largest significand. -/
def significandLimit : Nat := Nat.pow 2 64 - 1

/-- The leading digits before the point that fit the significand, and the number of those that
do not. -/
def readWhole : Nat → List Nat → Nat × Nat
  | significand, [] => (significand, 0)
  | significand, digit :: rest =>
    if significand * 10 + digit ≤ significandLimit then readWhole (significand * 10 + digit) rest
    else (significand, rest.length + 1)

/-- The significand extended by the leading digits after the point that fit it, and their
number. -/
def readFraction : Nat → List Nat → Nat × Nat
  | significand, [] => (significand, 0)
  | significand, digit :: rest =>
    if significand * 10 + digit ≤ significandLimit then
      let (extended, count) := readFraction (significand * 10 + digit) rest
      (extended, count + 1)
    else (significand, 0)

/-- A power of ten as a float. -/
def tenTo (power : Nat) : Float := Float.ofScientific 1 false power

/-- A float times a power of ten, `none` if the result is too large. Powers below `-308` are
applied in steps, until nothing is left of the float. -/
def scale : Nat → Float → Int → Option Float
  | steps, x, power =>
    if power.natAbs ≤ 308 then
      if 0 ≤ power then
        let y := x * tenTo power.natAbs
        if y == 1.0 / 0.0 then none else some y
      else some (x / tenTo power.natAbs)
    else if x == 0.0 then some x
    else if 0 ≤ power then none
    else
      match steps with
      | 0 => some 0.0
      | steps + 1 => scale steps (x / tenTo 308) (power + 308)

/-- The value of a number as it is written in a document. -/
inductive Number where
  /-- A natural number below `2 ^ 64`. -/
  | natural (n : Nat)
  /-- The opposite of a positive integer up to `2 ^ 63`. -/
  | negative (n : Nat)
  /-- Any other number. -/
  | real (x : Float)

/-- A natural number below `2 ^ 64` rounded to a float. -/
def ofNatural (n : Nat) : Float := (UInt64.ofNat n).toFloat

/-- The number as a float. -/
def Number.toFloat : Number → Float
  | .natural n => ofNatural n
  | .negative n => -(ofNatural n)
  | .real x => x

namespace Numeral

/-- The value of a numeral with a point, an exponent or too many digits for an integer. -/
def real? (n : Numeral) : Option Number :=
  let (whole, skipped) := readWhole 0 n.whole
  let (significand, places) := readFraction whole (n.fraction?.getD [])
  let power : Int := skipped - places + n.exponent?.getD 0
  (scale 4 (ofNatural significand) power).map fun x => .real (if n.negative then -x else x)

/-- The value of a numeral, `none` if it is too large. -/
def number? (n : Numeral) : Option Number :=
  match n.fraction?, n.exponent?, readWhole 0 n.whole with
  | none, none, (significand, 0) =>
    if !n.negative then some (.natural significand)
    else if significand = 0 || Nat.pow 2 63 < significand then
      some (.real (-(ofNatural significand)))
    else some (.negative significand)
  | _, _, _ => n.real?

end Numeral

end TemporalPlanning.Decimal
