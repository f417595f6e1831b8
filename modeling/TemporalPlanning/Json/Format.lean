import TemporalPlanning.Json.Basic
import TemporalPlanning.Decimal.Text
/-!
Document forms of domain values.

`Format α` says how the values of a type are written as JSON and which JSON values are read as one
of them. Three shapes recur. A record is an object with one member per field, or an array of the
fields in order; members with other names are ignored, but a field must not be given twice. A
choice is the name of an alternative, alone or as the only member of an object whose value holds
the contents of the alternative. A sequence is an array.
-/
set_option autoImplicit false

namespace TemporalPlanning

open Decimal

/-- How the values of a type are written as JSON and read from it. -/
class Format (α : Type) where
  write : α → Json
  read? : Json → Option α

namespace Json

/-! ## Scalars and sequences -/

/-- The natural number below a limit that a value stands for. -/
def natBelow? (limit : Nat) : Json → Option Nat
  | .number (.natural n) => if n < limit then some n else none
  | _ => none

/-- Limit of table positions and counts. -/
def indexLimit : Nat := Nat.pow 2 64

/-- Limit of level numbers. -/
def levelLimit : Nat := Nat.pow 2 32

/-- The items of an array. -/
def items? : Json → Option (List Json)
  | .array items => some items
  | _ => none

/-- A sequence whose items are read by the given function. -/
def list? {α : Type} (read? : Json → Option α) (j : Json) : Option (List α) := do
  (← j.items?).mapM read?

instance : Format Bool where
  write := .bool
  read?
    | .bool b => some b
    | _ => none

instance : Format String where
  write := .string
  read?
    | .string s => some s
    | _ => none

instance : Format Nat where
  write n := .number (.natural n)
  read? := natBelow? indexLimit

/-- Numbers that are not finite are written as `null` and cannot be read back. -/
instance : Format Float where
  write x := if isFinite x then .number (.real x) else .null
  read?
    | .number n => some n.toFloat
    | _ => none

instance {α : Type} [Format α] : Format (List α) where
  write xs := .array (xs.map Format.write)
  read? := list? Format.read?

instance {α : Type} [Format α] : Format (Array α) where
  write xs := .array (xs.toList.map Format.write)
  read? j := (list? Format.read? j).map List.toArray

/-- A pair is an array of two items. -/
instance {α β : Type} [Format α] [Format β] : Format (α × β) where
  write p := .array [Format.write p.1, Format.write p.2]
  read?
    | .array [a, b] => do return (← Format.read? a, ← Format.read? b)
    | _ => none

/-- An absent value is `null`. -/
instance {α : Type} [Format α] : Format (Option α) where
  write x := x.elim .null Format.write
  read?
    | .null => some none
    | j => (Format.read? j).map some

/-! ## Records -/

/-- A document seen as the values of the fields of a record. -/
structure Record where
  /-- Whether the fields are given in order and not by name. -/
  positional : Bool
  fields : List (String × Json)

/-- A document as a record with the given fields, in the order of `names`. -/
def record? (names : List String) : Json → Option Record
  | .object members =>
    let fields := members.map fun member => (member.1.text, member.2)
    let known := fields.filter fun field => names.contains field.1
    if (known.map Prod.fst).Nodup then some ⟨false, known⟩ else none
  | .array items => if items.length ≤ names.length then some ⟨true, names.zip items⟩ else none
  | _ => none

namespace Record

/-- A field that must be given, read by the given function. -/
def requiredBy {α : Type} (r : Record) (name : String) (read? : Json → Option α) : Option α :=
  r.fields.lookup name >>= read?

/-- A field that must be given. -/
def required {α : Type} [Format α] (r : Record) (name : String) : Option α :=
  r.requiredBy name Format.read?

/-- A field with a value of its own when it is not given. -/
def defaulted {α : Type} [Format α] (r : Record) (name : String) (default : α) : Option α :=
  match r.fields.lookup name with
  | some j => Format.read? j
  | none => some default

/-- A field that may be `null`, and may be left out where fields are given by name. -/
def optional {α : Type} [Format α] (r : Record) (name : String) : Option (Option α) :=
  match r.fields.lookup name with
  | some j => Format.read? j
  | none => if r.positional then none else some none

end Record

/-! ## Choices -/

/-- A document seen as the choice of an alternative. -/
structure Choice where
  name : String
  /-- The contents, if the name does not stand alone. -/
  contents? : Option Json

/-- A document as the choice of an alternative. -/
def choice? : Json → Option Choice
  | .string name => some ⟨name, none⟩
  | .object [(name, contents)] => some ⟨name.text, some contents⟩
  | _ => none

/-- Whether a choice has no contents. -/
def Choice.isBare (c : Choice) : Bool :=
  match c.contents? with
  | none | some .null => true
  | some _ => false

/-- The contents of a choice. -/
def Choice.read? {α : Type} [Format α] (c : Choice) : Option α := c.contents? >>= Format.read?

/-- The contents of a choice as a record. -/
def Choice.record? (c : Choice) (names : List String) : Option Record :=
  c.contents? >>= Json.record? names

/-- The choice of an alternative with contents. -/
def chosen {α : Type} [Format α] (name : String) (contents : α) : Json :=
  .record [(name, Format.write contents)]

/-- One of several values without contents, told apart by their names. -/
def named? {α : Type} (all : List α) (name : α → String) (j : Json) : Option α := do
  let c ← j.choice?
  if c.isBare then all.find? fun x => name x == c.name else none

/-! ## Objects with numbers as names -/

/-- The number that a member name stands for: digits without leading zeros, none of them written
as an escape. -/
def Key.index? (name : Key) : Option Nat :=
  match name.text.toList with
  | [] => none
  | '0' :: _ :: _ => none
  | cs =>
    if !name.isEscaped && cs.all Char.isDigit then
      let n := cs.foldl (fun n c => n * 10 + (c.toNat - '0'.toNat)) 0
      if n < indexLimit then some n else none
    else none

end Json

end TemporalPlanning
