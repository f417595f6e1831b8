import TemporalPlanning.Json.Basic
import TemporalPlanning.Decimal.Text
/-!
Writing JSON texts, on one line or indented.

Strings escape quotes, backslashes and control characters and nothing else, however a name was
written that has been read. Numbers that are not finite have no JSON form and are written as
`null`; what is unreadable is written as a number that is beyond the range of floats.
-/
set_option autoImplicit false

namespace TemporalPlanning.Json

open Decimal

/-- A digit of a hexadecimal number. -/
def hexDigit (n : Nat) : Char := if n < 10 then Char.ofNat (48 + n) else Char.ofNat (87 + n)

/-- How a character stands in a string. -/
def escape (c : Char) : List Char :=
  if c == '"' then ['\\', '"']
  else if c == '\\' then ['\\', '\\']
  else if c == '\n' then ['\\', 'n']
  else if c == '\r' then ['\\', 'r']
  else if c == '\t' then ['\\', 't']
  else if c == '\x08' then ['\\', 'b']
  else if c == '\x0c' then ['\\', 'f']
  else if c.toNat < 0x20 then ['\\', 'u', '0', '0', hexDigit (c.toNat / 16), hexDigit (c.toNat % 16)]
  else [c]

/-- A string with its quotes. -/
def quote (s : String) : String := "\"" ++ String.ofList (s.toList.flatMap escape) ++ "\""

/-- A number, `null` if it is not finite. -/
def renderNumber : Number → String
  | .natural n => toString n
  | .negative n => "-" ++ toString n
  | .real x => if isFinite x then Decimal.render marked x else "null"

/-- Spacing of a text: what stands before an item at a nesting level, before the end of its
container, and after a colon. -/
structure Layout where
  line : Nat → String
  afterColon : String

/-- Everything on one line. -/
def compact : Layout := ⟨fun _ => "", ""⟩

/-- Every item on a line of its own, two more blanks per level. -/
def indented : Layout :=
  ⟨fun level => "\n" ++ String.ofList (List.replicate (2 * level) ' '), " "⟩

mutual

/-- Appends a value inside `level` containers to a text. -/
def append (layout : Layout) (level : Nat) (out : String) : Json → String
  | .null => out ++ "null"
  | .unreadable => out ++ "1e999"
  | .bool b => out ++ if b then "true" else "false"
  | .number n => out ++ renderNumber n
  | .string s => out ++ quote s
  | .array [] => out ++ "[]"
  | .array (item :: rest) =>
    let out := append layout (level + 1) (out ++ "[" ++ layout.line (level + 1)) item
    appendItems layout (level + 1) out rest ++ layout.line level ++ "]"
  | .object [] => out ++ "\x7b\x7d"
  | .object ((name, value) :: rest) =>
    let out := out ++ "\x7b" ++ layout.line (level + 1) ++ quote name.text ++ ":" ++ layout.afterColon
    let out := append layout (level + 1) out value
    appendMembers layout (level + 1) out rest ++ layout.line level ++ "\x7d"

/-- Appends the items behind the first one. -/
def appendItems (layout : Layout) (level : Nat) (out : String) : List Json → String
  | [] => out
  | item :: rest =>
    let out := append layout level (out ++ "," ++ layout.line level) item
    appendItems layout level out rest

/-- Appends the members behind the first one. -/
def appendMembers (layout : Layout) (level : Nat) (out : String) :
    List (Key × Json) → String
  | [] => out
  | (name, value) :: rest =>
    let out := out ++ "," ++ layout.line level ++ quote name.text ++ ":" ++ layout.afterColon
    let out := append layout level out value
    appendMembers layout level out rest

end

/-- The text of a value. -/
def render (layout : Layout) (j : Json) : String := append layout 0 "" j

end TemporalPlanning.Json
