/-!
Shortest decimal digits of a floating-point number.

A finite magnitude is `mantissa · 2 ^ exponent`. Every real closer to it than to its neighbours
rounds to it, the two midpoints included when the mantissa is even. Among the decimal grids
`10 ^ k` the coarsest one with a point in that interval is chosen, and on it the point nearest to
the magnitude, the upper one if two points are equally near. All comparisons are between natural
numbers, so nothing is rounded on the way.
-/
set_option autoImplicit false

namespace TemporalPlanning.Decimal

/-- A positive magnitude `mantissa · 2 ^ exponent`. -/
structure Magnitude where
  mantissa : Nat
  exponent : Int
  /-- The next smaller float is only half as far away as the next larger one. -/
  narrowBelow : Bool
deriving DecidableEq

/-- What the bits of a float stand for, apart from the sign. -/
inductive Kind where
  | zero
  | finite (magnitude : Magnitude)
  | infinite
  | undefined
deriving DecidableEq

/-- Whether the sign bit of a float is set. -/
def isNegative (x : Float) : Bool := x.toBits.toNat / Nat.pow 2 63 == 1

/-- The kind and magnitude of a float, read from its exponent and fraction bits. -/
def kind (x : Float) : Kind :=
  let bits := x.toBits.toNat
  let biased : Nat := bits / Nat.pow 2 52 % Nat.pow 2 11
  let fraction := bits % Nat.pow 2 52
  if biased = Nat.pow 2 11 - 1 then
    if fraction = 0 then .infinite else .undefined
  else if biased = 0 then
    if fraction = 0 then .zero else .finite ⟨fraction, -1074, false⟩
  else
    .finite ⟨fraction + Nat.pow 2 52, Int.ofNat biased - 1075, fraction == 0 && 1 < biased⟩

/-- A decimal number `digits · 10 ^ exponent`. -/
structure Scaled where
  digits : Nat
  exponent : Int
deriving DecidableEq

namespace Magnitude

/-- A quarter of the distance to the next larger float, in units that make both this quarter and
the step of the grid `10 ^ k` natural numbers. -/
def quarter (m : Magnitude) (k : Int) : Nat :=
  Nat.pow 2 (m.exponent - 2).toNat * Nat.pow 10 (-k).toNat

/-- The step of the grid `10 ^ k`, in the units of `quarter`. -/
def step (m : Magnitude) (k : Int) : Nat := Nat.pow 10 k.toNat * Nat.pow 2 (2 - m.exponent).toNat

/-- Whether `point · 10 ^ k` rounds to the magnitude. -/
def covers (m : Magnitude) (k : Int) (point : Nat) : Bool :=
  let low := (4 * m.mantissa - if m.narrowBelow then 1 else 2) * m.quarter k
  let high := (4 * m.mantissa + 2) * m.quarter k
  let x := point * m.step k
  if m.mantissa % 2 = 0 then low ≤ x && x ≤ high else low < x && x < high

/-- The point of the grid `10 ^ k` nearest to the magnitude, if a point of that grid rounds
to it. -/
def nearest? (m : Magnitude) (k : Int) : Option Nat :=
  let value := 4 * m.mantissa * m.quarter k
  let below := value / m.step k
  let above := below + 1
  match m.covers k below, m.covers k above with
  | true, true =>
    if value - below * m.step k < above * m.step k - value then some below else some above
  | true, false => some below
  | false, true => some above
  | false, false => none

/-- The coarsest of the grids `10 ^ k`, `10 ^ (k - 1)`, … with a point that rounds to the
magnitude, and that point. -/
def search (m : Magnitude) : Nat → Int → Scaled
  | 0, k => ⟨4 * m.mantissa * m.quarter k / m.step k, k⟩
  | grids + 1, k =>
    match m.nearest? k with
    | some point => ⟨point, k⟩
    | none => search m grids (k - 1)

/-- A power of ten above the magnitude. -/
def ceiling (m : Magnitude) : Int :=
  (m.mantissa.log2 + 2 + m.exponent) * 30103 / 100000 + 1

/-- The shortest decimal number that rounds to the magnitude. A float has at most 17 significant
digits, and the search starts at most a few powers of ten too high. -/
def shortest (m : Magnitude) : Scaled := m.search 24 m.ceiling

end Magnitude

end TemporalPlanning.Decimal
