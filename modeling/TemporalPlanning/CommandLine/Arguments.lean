import TemporalPlanning.Options
/-!
Arguments of the command line.

Arguments are read from the left. A long option is a name after two hyphens, and its value is the
rest behind an equals sign or else the next argument, which must not look like an option. Switches
are single letters after one hyphen, or long options without a value. Two hyphens alone end the
options. Nothing but the request for more messages may be repeated. The first request for help or
for the version wins over everything behind it.
-/
set_option autoImplicit false

namespace TemporalPlanning.CommandLine

/-- An option without a value that may be given once. -/
inductive Switch where
  | quiet
  | keepStatic
  | onlyMutex
  | grounded
  | stats
  | json
deriving DecidableEq

/-- An option with a value. -/
inductive Setting where
  | logLevel
  | mutexFile
  | grouping
  | passLimit
  | output
deriving DecidableEq

/-- What a long option stands for. -/
inductive Named where
  | switch (s : Switch)
  | setting (s : Setting)
  | help
  | version
deriving DecidableEq

/-- The long option with a name. -/
def Named.ofName? : String → Option Named
  | "rust_log" => some (.setting .logLevel)
  | "keep-static" => some (.switch .keepStatic)
  | "only-mutex" => some (.switch .onlyMutex)
  | "mutex-file" => some (.setting .mutexFile)
  | "split" => some (.setting .grouping)
  | "pass-limit" => some (.setting .passLimit)
  | "grounded" => some (.switch .grounded)
  | "stats" => some (.switch .stats)
  | "json" => some (.switch .json)
  | "output" => some (.setting .output)
  | "help" => some .help
  | "version" => some .version
  | _ => none

/-- What has been given so far. -/
structure Given where
  input : Option String := none
  /-- How often more messages have been asked for. -/
  verbosity : Nat := 0
  switches : List Switch := []
  settings : List (Setting × String) := []
deriving DecidableEq

/-- How the reading of arguments ends. -/
inductive Reading where
  | complete (given : Given)
  | help
  | version
  | misuse
deriving DecidableEq

/-! ## Values -/

/-- The number that a text stands for: digits, possibly after a plus sign. -/
def limitOf? (text : String) : Option Nat :=
  let digits := match text.toList with
    | '+' :: rest => rest
    | cs => cs
  if digits.isEmpty || !digits.all Char.isDigit then none
  else
    let n := digits.foldl (fun n c => n * 10 + (c.toNat - '0'.toNat)) 0
    if n < Json.indexLimit then some n else none

/-- Whether a setting accepts a value. -/
def Setting.accepts : Setting → String → Bool
  | .logLevel, _ => true
  | .mutexFile, value | .output, value => !value.isEmpty
  | .grouping, value => (Grouping.ofName? value).isSome
  | .passLimit, value => (limitOf? value).isSome

/-- The value of a setting whose option stands alone. -/
def Setting.default? : Setting → Option String
  | .mutexFile => some ({} : Options).mutexFile
  | .logLevel | .grouping | .passLimit | .output => none

namespace Given

variable (g : Given)

/-- Gives a switch, once. -/
def addSwitch? (s : Switch) : Option Given :=
  if g.switches.contains s then none else some { g with switches := s :: g.switches }

/-- Gives a setting an acceptable value, once. -/
def addSetting? (s : Setting) (value : String) : Option Given :=
  if (g.settings.lookup s).isSome || !s.accepts value then none
  else some { g with settings := (s, value) :: g.settings }

/-- Gives the input file, once. -/
def addInput? (path : String) : Option Given :=
  if g.input.isSome || path.isEmpty then none else some { g with input := some path }

end Given

/-! ## Arguments -/

/-- Whether an argument can be the value of the option before it. -/
def isValue (arg : String) : Bool :=
  match arg.toList with
  | '-' :: _ :: _ => false
  | _ => true

/-- The name of a long option and the value attached to it. -/
def splitName (cs : List Char) : String × Option String :=
  match cs.span (· != '=') with
  | (name, _ :: value) => (String.ofList name, some (String.ofList value))
  | (name, []) => (String.ofList name, none)

/-- Reads letters behind one hyphen; `next` reads the arguments that follow. -/
def readLetters (next : Given → Reading) : List Char → Given → Reading
  | [], g => next g
  | 'v' :: rest, g => readLetters next rest { g with verbosity := g.verbosity + 1 }
  | 'q' :: rest, g => (g.addSwitch? .quiet).elim .misuse (readLetters next rest)
  | 'h' :: _, _ => .help
  | 'V' :: _, _ => .version
  | _ :: _, _ => .misuse

/-- Reads input files, of which there is one. -/
def readInputs : List String → Given → Reading
  | [], g => .complete g
  | path :: rest, g => (g.addInput? path).elim .misuse (readInputs rest)

/-- Reads arguments. -/
def readArguments : List String → Given → Reading
  | [], g => .complete g
  | arg :: rest, g =>
    match arg.toList with
    | ['-', '-'] => readInputs rest g
    | '-' :: '-' :: cs =>
      let (name, attached) := splitName cs
      match Named.ofName? name, attached with
      | some (.switch s), none => (g.addSwitch? s).elim .misuse (readArguments rest)
      | some .help, none => .help
      | some .version, none => .version
      | some (.setting s), some value =>
        (g.addSetting? s value).elim .misuse (readArguments rest)
      | some (.setting s), none =>
        match rest with
        | value :: rest =>
          if isValue value then (g.addSetting? s value).elim .misuse (readArguments rest)
          else
            (s.default?.bind (g.addSetting? s)).elim .misuse (readArguments (value :: rest))
        | [] => (s.default?.bind (g.addSetting? s)).elim .misuse .complete
      | _, _ => .misuse
    | '-' :: c :: cs => readLetters (readArguments rest) (c :: cs) g
    | _ => (g.addInput? arg).elim .misuse (readArguments rest)

/-! ## Requests -/

/-- What is done with a task. -/
structure Job where
  input : String
  options : Options
  /-- Whether the grounded task is the result. -/
  stopsGrounded : Bool
  showsStats : Bool
  writesJson : Bool
  /-- The file for the result, if it is not to be printed. -/
  output : Option String
deriving DecidableEq

/-- What the command line asks for. -/
inductive Request where
  | job (job : Job)
  | help
  | version
  | misuse
deriving DecidableEq

namespace Given

variable (g : Given)

/-- Whether a switch is given. -/
def has (s : Switch) : Bool := g.switches.contains s

/-- The value of a setting. -/
def value? (s : Setting) : Option String := g.settings.lookup s

/-- The options of grounding and encoding. -/
def options : Options :=
  let default : Options := {}
  { keepStatic := g.has .keepStatic
    onlyMutex := g.has .onlyMutex
    writesMutexFile := (g.value? .mutexFile).isSome
    mutexFile := (g.value? .mutexFile).getD default.mutexFile
    grouping := ((g.value? .grouping).bind Grouping.ofName?).getD default.grouping
    passLimit := ((g.value? .passLimit).bind limitOf?).getD default.passLimit }

/-- The job on an input file. -/
def jobOn (input : String) : Job where
  input := input
  options := g.options
  stopsGrounded := g.has .grounded
  showsStats := g.has .stats
  writesJson := g.has .json
  output := g.value? .output

end Given

/-- The request that arguments make. There must be an input file, and not both more and fewer
messages. -/
def Request.ofArguments (args : List String) : Request :=
  match readArguments args {} with
  | .help => .help
  | .version => .version
  | .misuse => .misuse
  | .complete g =>
    match g.input with
    | some input => if 0 < g.verbosity && g.has .quiet then .misuse else .job (g.jobOn input)
    | none => .misuse

end TemporalPlanning.CommandLine
