import TemporalPlanning.Decimal.Reading
/-!
JSON documents.

A document is a tree of values. Members of an object keep their order and may repeat a name; what
a repetition means is decided by whoever reads the object. Some texts are well formed but have no
value: a string with an unpaired surrogate, an object with such a name, a number beyond the range
of floats, and a container that is nested too deeply. They stand in the tree as `unreadable` and do
no harm where nobody looks at them.
-/
set_option autoImplicit false

namespace TemporalPlanning

open Decimal

/-- The name of a member of an object. -/
structure Json.Key where
  text : String
  /-- Whether the name is written with escapes. A number must not be written so. -/
  isEscaped : Bool
deriving DecidableEq, Inhabited

/-- A JSON value. -/
inductive Json where
  | null
  | bool (b : Bool)
  | number (n : Number)
  | string (s : String)
  | array (items : List Json)
  | object (members : List (Json.Key × Json))
  /-- What is well formed and has no value. -/
  | unreadable
deriving Inhabited

namespace Json

mutual

/-- How deeply arrays and objects are nested. -/
def depth : Json → Nat
  | .array items => depthOfItems items + 1
  | .object members => depthOfMembers members + 1
  | .null | .bool _ | .number _ | .string _ | .unreadable => 0

/-- The greatest depth among array items. -/
def depthOfItems : List Json → Nat
  | [] => 0
  | item :: rest => max item.depth (depthOfItems rest)

/-- The greatest depth among object members. -/
def depthOfMembers : List (Key × Json) → Nat
  | [] => 0
  | (_, value) :: rest => max value.depth (depthOfMembers rest)

end

/-- The object with the given members, whose names are written without escapes. -/
def record (fields : List (String × Json)) : Json :=
  .object (fields.map fun field => (⟨field.1, false⟩, field.2))

end Json

end TemporalPlanning
