import TemporalPlanning.Decimal.Shortest
/-!
Text of floating-point numbers.

Numbers are written with their shortest digits in one of two styles. The plain style is always
positional and writes whole numbers without a point. The marked style is recognisable as a
fractional number: whole numbers end in `.0`, and magnitudes from `10 ^ 16` on or below
`10 ^ (-4)` have an exponent.
-/
set_option autoImplicit false

namespace TemporalPlanning.Decimal

/-- A way of writing numbers. -/
structure Style where
  /-- Whether whole numbers end in `.0`. -/
  marksWhole : Bool
  /-- Decimal exponents of the leading digit from which on (and below which) an exponent is
  written, if any. -/
  scientific? : Option (Int × Int)

/-- Always positional, whole numbers without a point. -/
def plain : Style := ⟨false, none⟩

/-- Whole numbers end in `.0`, and very large or small magnitudes have an exponent. -/
def marked : Style := ⟨true, some (16, -4)⟩

/-- The given number of zeros. -/
def zeros (count : Nat) : String := String.ofList (List.replicate count '0')

namespace Scaled

/-- Decimal exponent of the leading digit. -/
def leading (s : Scaled) : Int := (toString s.digits).length + s.exponent - 1

/-- The number without an exponent. -/
def positional (s : Scaled) (marksWhole : Bool) : String :=
  let digits := toString s.digits
  let whole := digits.length + s.exponent
  if 0 ≤ s.exponent then
    digits ++ zeros s.exponent.toNat ++ if marksWhole then ".0" else ""
  else if 0 < whole then
    let cs := digits.toList
    String.ofList (cs.take whole.toNat) ++ "." ++ String.ofList (cs.drop whole.toNat)
  else
    "0." ++ zeros (-whole).toNat ++ digits

/-- The number with one digit before the point and an exponent. -/
def withExponent (s : Scaled) : String :=
  let fraction := (toString s.digits).toList.drop 1
  String.ofList ((toString s.digits).toList.take 1)
    ++ (if fraction.isEmpty then "" else "." ++ String.ofList fraction)
    ++ "e" ++ toString s.leading

/-- The number in a style. -/
def render (s : Scaled) (style : Style) : String :=
  match style.scientific? with
  | some (large, small) =>
    if large ≤ s.leading || s.leading < small then s.withExponent
    else s.positional style.marksWhole
  | none => s.positional style.marksWhole

end Scaled

/-- The text of a float in a style. -/
def render (style : Style) (x : Float) : String :=
  let sign := if isNegative x then "-" else ""
  match kind x with
  | .zero => sign ++ if style.marksWhole then "0.0" else "0"
  | .finite m => sign ++ m.shortest.render style
  | .infinite => sign ++ "inf"
  | .undefined => "NaN"

/-- Whether a float is neither infinite nor undefined. -/
def isFinite (x : Float) : Bool :=
  match kind x with
  | .zero | .finite _ => true
  | .infinite | .undefined => false

end TemporalPlanning.Decimal
