import TemporalPlanning.Json.Basic
/-!
Reading JSON texts.

The reader accepts exactly the texts of RFC 8259, with blanks around the value and nothing else.
Containers that are nested more than 127 deep have no value. Each function takes the characters
that are left and returns what it read with the characters behind it.
-/
set_option autoImplicit false

namespace TemporalPlanning.Json

open Decimal

/-! ## Blanks and numbers -/

/-- The blanks that may stand between tokens. -/
def isBlank (c : Char) : Bool := c == ' ' || c == '\n' || c == '\t' || c == '\r'

/-- The text behind leading blanks. -/
def skipBlanks (cs : List Char) : List Char := cs.dropWhile isBlank

/-- The value of a decimal digit. -/
def digitValue (c : Char) : Nat := c.toNat - '0'.toNat

/-- A possibly empty run of digits. -/
def readDigits (cs : List Char) : List Nat × List Char :=
  ((cs.takeWhile Char.isDigit).map digitValue, cs.dropWhile Char.isDigit)

/-- The natural number with the given decimal digits. -/
def ofDigits (digits : List Nat) : Nat := digits.foldl (fun n digit => n * 10 + digit) 0

/-- The fraction of a numeral: nothing, or a point and at least one digit. -/
def readFractionPart : List Char → Option (Option (List Nat) × List Char)
  | '.' :: rest =>
    match readDigits rest with
    | ([], _) => none
    | (digits, rest) => some (some digits, rest)
  | cs => some (none, cs)

/-- The digits of an exponent, with its sign already read. -/
def readExponentDigits (negative : Bool) (cs : List Char) : Option (Option Int × List Char) :=
  match readDigits cs with
  | ([], _) => none
  | (digits, rest) =>
    let n : Int := ofDigits digits
    some (some (if negative then -n else n), rest)

/-- The exponent of a numeral: nothing, or a mark, possibly a sign, and at least one digit. -/
def readExponentPart : List Char → Option (Option Int × List Char)
  | 'e' :: '+' :: rest | 'E' :: '+' :: rest => readExponentDigits false rest
  | 'e' :: '-' :: rest | 'E' :: '-' :: rest => readExponentDigits true rest
  | 'e' :: rest | 'E' :: rest => readExponentDigits false rest
  | cs => some (none, cs)

/-- A numeral without a sign. A leading zero stands alone before the point. -/
def readUnsigned (negative : Bool) (cs : List Char) : Option (Numeral × List Char) := do
  let (whole, cs) := readDigits cs
  match whole with
  | [] => none
  | 0 :: _ :: _ => none
  | _ =>
    let (fraction?, cs) ← readFractionPart cs
    let (exponent?, cs) ← readExponentPart cs
    return (⟨negative, whole, fraction?, exponent?⟩, cs)

/-- A numeral. -/
def readNumeral : List Char → Option (Numeral × List Char)
  | '-' :: rest => readUnsigned true rest
  | cs => readUnsigned false cs

/-- A number, unreadable if it is beyond the range of floats. -/
def readNumber (cs : List Char) : Option (Json × List Char) := do
  let (numeral, cs) ← readNumeral cs
  match numeral.number? with
  | some n => return (.number n, cs)
  | none => return (.unreadable, cs)

/-! ## Strings -/

/-- The value of a hexadecimal digit. -/
def hexValue? (c : Char) : Option Nat :=
  if c.isDigit then some (c.toNat - '0'.toNat)
  else if 'a' ≤ c && c ≤ 'f' then some (c.toNat - 'a'.toNat + 10)
  else if 'A' ≤ c && c ≤ 'F' then some (c.toNat - 'A'.toNat + 10)
  else none

/-- The number written by four hexadecimal digits. -/
def codeUnit? (a b c d : Char) : Option Nat := do
  return (((← hexValue? a) * 16 + (← hexValue? b)) * 16 + (← hexValue? c)) * 16 + (← hexValue? d)

/-- An element of a string as it is written. -/
inductive Element where
  | plain (c : Char)
  /-- A character given by a short escape. -/
  | escaped (c : Char)
  /-- A UTF-16 code unit given by its number. -/
  | unit (n : Nat)

/-- Whether an element is written without an escape. -/
def Element.isPlain : Element → Bool
  | .plain _ => true
  | .escaped _ | .unit _ => false

/-- The character meant by a short escape. -/
def escaped? : Char → Option Char
  | '"' => some '"'
  | '\\' => some '\\'
  | '/' => some '/'
  | 'b' => some '\x08'
  | 'f' => some '\x0c'
  | 'n' => some '\n'
  | 'r' => some '\r'
  | 't' => some '\t'
  | _ => none

/-- The elements of a string up to its closing quote. Control characters must be escaped. -/
def readElements : List Char → Option (List Element × List Char)
  | '"' :: rest => some ([], rest)
  | '\\' :: 'u' :: a :: b :: c :: d :: rest => do
    let n ← codeUnit? a b c d
    let (elements, rest) ← readElements rest
    return (.unit n :: elements, rest)
  | '\\' :: c :: rest => do
    let c ← escaped? c
    let (elements, rest) ← readElements rest
    return (.escaped c :: elements, rest)
  | c :: rest =>
    if c.toNat < 0x20 then none
    else do
      let (elements, rest) ← readElements rest
      return (.plain c :: elements, rest)
  | [] => none

/-- Whether a code unit is the first half of a pair. -/
def isLeading (n : Nat) : Bool := 0xD800 ≤ n && n < 0xDC00

/-- Whether a code unit is the second half of a pair. -/
def isTrailing (n : Nat) : Bool := 0xDC00 ≤ n && n < 0xE000

/-- The characters of a string, `none` if half of a pair stands alone. -/
def assemble : List Element → Option (List Char)
  | [] => some []
  | .plain c :: rest | .escaped c :: rest => (assemble rest).map (c :: ·)
  | .unit n :: .unit m :: rest =>
    if isLeading n then
      if isTrailing m then
        (assemble rest).map (Char.ofNat (0x10000 + (n - 0xD800) * 0x400 + (m - 0xDC00)) :: ·)
      else none
    else if isTrailing n then none
    else (assemble (.unit m :: rest)).map (Char.ofNat n :: ·)
  | .unit n :: rest =>
    if isLeading n || isTrailing n then none else (assemble rest).map (Char.ofNat n :: ·)

/-- A string behind its opening quote: its text, if it has one. -/
def readText (cs : List Char) : Option (Option String × List Char) := do
  let (elements, cs) ← readElements cs
  return ((assemble elements).map String.ofList, cs)

/-- A member name behind its opening quote, if it has a text. -/
def readKey (cs : List Char) : Option (Option Key × List Char) := do
  let (elements, cs) ← readElements cs
  let isEscaped := !elements.all Element.isPlain
  return ((assemble elements).map fun text => ⟨String.ofList text, isEscaped⟩, cs)

/-! ## Values -/

/-- A container where containers may still be nested `depth` deep, unreadable if none may. -/
def containerWithin (depth : Nat) (container : Json) : Json :=
  if depth = 0 then .unreadable else container

/-- The object with the given members, unreadable if a name has no text. -/
def ofMembers (members : List (Option Key × Json)) : Json :=
  let named? : Option (List (Key × Json)) :=
    members.mapM fun member => do return (← member.1, member.2)
  named?.elim .unreadable .object

mutual

/-- A value. Containers in it that are nested more than `depth` deep are unreadable. -/
def readValue : Nat → Nat → List Char → Option (Json × List Char)
  | 0, _, _ => none
  | fuel + 1, depth, cs =>
    match skipBlanks cs with
    | '{' :: rest =>
      match skipBlanks rest with
      | '}' :: rest => some (containerWithin depth (.object []), rest)
      | rest => do
        let (members, rest) ← readMembers fuel (depth - 1) rest
        return (containerWithin depth (ofMembers members), rest)
    | '[' :: rest =>
      match skipBlanks rest with
      | ']' :: rest => some (containerWithin depth (.array []), rest)
      | rest => do
        let (items, rest) ← readItems fuel (depth - 1) rest
        return (containerWithin depth (.array items), rest)
    | '"' :: rest => do
      let (text?, rest) ← readText rest
      return (text?.elim .unreadable .string, rest)
    | 'n' :: 'u' :: 'l' :: 'l' :: rest => some (.null, rest)
    | 't' :: 'r' :: 'u' :: 'e' :: rest => some (.bool true, rest)
    | 'f' :: 'a' :: 'l' :: 's' :: 'e' :: rest => some (.bool false, rest)
    | rest => readNumber rest

/-- The items of a non-empty array up to its closing bracket. -/
def readItems : Nat → Nat → List Char → Option (List Json × List Char)
  | 0, _, _ => none
  | fuel + 1, depth, cs => do
    let (item, cs) ← readValue fuel depth cs
    match skipBlanks cs with
    | ',' :: rest => do
      let (items, rest) ← readItems fuel depth rest
      return (item :: items, rest)
    | ']' :: rest => return ([item], rest)
    | _ => none

/-- The members of a non-empty object up to its closing brace. -/
def readMembers : Nat → Nat → List Char → Option (List (Option Key × Json) × List Char)
  | 0, _, _ => none
  | fuel + 1, depth, cs =>
    match skipBlanks cs with
    | '"' :: rest => do
      let (name?, rest) ← readKey rest
      match skipBlanks rest with
      | ':' :: rest => do
        let (value, rest) ← readValue fuel depth rest
        match skipBlanks rest with
        | ',' :: rest => do
          let (members, rest) ← readMembers fuel depth rest
          return ((name?, value) :: members, rest)
        | '}' :: rest => return ([(name?, value)], rest)
        | _ => none
      | _ => none
    | _ => none

end

/-- The value written by a text, if it is a single JSON value; containers nested more than `depth`
deep are unreadable. Every second call of the readers consumes a character, so twice the length of
the text is enough fuel. -/
def parseWithin? (depth : Nat) (text : String) : Option Json := do
  let cs := text.toList
  let (value, rest) ← readValue (2 * cs.length + 2) depth cs
  if (skipBlanks rest).isEmpty then return value else none

/-- The deepest nesting of containers that are read in a document. -/
def nestingLimit : Nat := 127

/-- The document written by a text. -/
def parse? (text : String) : Option Json := parseWithin? nestingLimit text

end TemporalPlanning.Json
