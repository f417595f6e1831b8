import TemporalPlanning.CommandLine.Arguments
import TemporalPlanning.Encoding.Encode
import TemporalPlanning.FiniteDomain.Format
import TemporalPlanning.FiniteDomain.Text
import TemporalPlanning.Grounded.Format
import TemporalPlanning.Grounded.Text
import TemporalPlanning.Grounding.Statics
import TemporalPlanning.Json.Reader
import TemporalPlanning.Json.Writer
/-!
What the command line does.

A task is read, grounded and, unless the grounded task is asked for, encoded. The result is written
as a text or as JSON. The file for it is created before the task is encoded, and the mutex file
before the rest of the encoding, so a failure may leave them behind. Files and messages are
accessed through `Surroundings`, so a run can be looked at without any.
-/
set_option autoImplicit false

namespace TemporalPlanning.CommandLine

/-- How a run ends. -/
inductive Exit where
  | success
  | failure
  | misuse
deriving DecidableEq

/-- The exit code. -/
def Exit.code : Exit → Nat
  | .success => 0
  | .failure => 1
  | .misuse => 2

/-- Files and messages. -/
structure Surroundings (m : Type → Type) where
  /-- The contents of a file, if it can be read. -/
  read? : String → m (Option String)
  /-- Creates a file or empties an existing one, and tells whether that was possible. -/
  create : String → m Bool
  /-- Writes a text at the beginning of a file. -/
  write : String → String → m Unit
  /-- Prints a text of the result. -/
  print : String → m Unit
  /-- Prints a message about the run. -/
  report : String → m Unit

/-- Name and version of the program. -/
def versionText : String := "ground-sas 0.1.0\n"

/-- What the program does and which arguments it takes. -/
def helpText : String := Text.lines
  ["Grounder for lifted temporal planning tasks and translator into SAS+ finite-domain variables",
    "",
    "Usage: ground-sas [OPTIONS] <INPUT>",
    "",
    "Arguments:",
    "  <INPUT>  Input filename",
    "",
    "Options:",
    "      --rust_log <RUST_LOG>        Sets the verbosity to 'warn', 'info', 'debug' or 'trace' "
      ++ "if -v and -q are not used [env: RUST_LOG=]",
    "  -v...                            Sets log verbosity (multiple times means more verbose)",
    "  -q                               Sets log verbosity to only errors",
    "      --keep-static                Keep the variables whose value never changes",
    "      --only-mutex                 Only compute the mutexes, every proposition becomes a "
      ++ "boolean variable",
    "      --mutex-file [<MUTEX_FILE>]  Write the mutex pairs to the given file [default when "
      ++ "given without a value: mutex.txt]",
    "      --split <SPLIT>              Strategy used to group the mutex propositions, 'cliques' "
      ++ "or 'components' [default: cliques]",
    "      --pass-limit <PASS_LIMIT>    Maximal number of passes of the mutex computation",
    "      --grounded                   Stop after grounding and print the grounded task",
    "      --stats                      Print the per-level grounding statistics to stderr",
    "      --json                       Print JSON instead of the textual representation",
    "      --output <OUTPUT>            Write the result to the given file instead of stdout",
    "  -h, --help                       Print help",
    "  -V, --version                    Print version"]

variable {m : Type → Type} [Monad m] (s : Surroundings m)

/-- A step of a job, which an error ends. -/
abbrev Step (m : Type → Type) := ExceptT Error m

/-- Creates a file. -/
def createFile (path : String) : Step m Unit := do
  unless ← s.create path do throw .inaccessibleFile

/-- Reads a problem from a file. -/
def readProblem (path : String) : Step m Lifted.Problem := do
  match ← s.read? path with
  | none => throw .inaccessibleFile
  | some text =>
    match Json.parse? text >>= Format.read? with
    | some problem =>
      liftExcept (Lifted.Problem.validate problem)
      return problem
    | none => throw .unreadableDocument

/-- The result as it is written. -/
def resultText (writesJson : Bool) (text : String) (json : Json) : String :=
  if writesJson then json.render Json.indented ++ "\n" else text

/-- Encodes a task, and writes the mutex file if there is one. -/
def encodeTask (options : Options) (t : Grounded.Task) : Step m FiniteDomain.Task := do
  let outcome := Encoding.encode t options
  if let some text := outcome.mutexFile? then
    createFile s options.mutexFile
    s.write options.mutexFile text
  liftExcept outcome.result

/-- The text of the result for a grounded task. -/
def solve (job : Job) (t : Grounded.Task) : Step m String := do
  if job.stopsGrounded then return resultText job.writesJson t.text (Format.write t)
  else
    let encoded ← encodeTask s job.options t
    return resultText job.writesJson encoded.text encoded.toJson

/-- Does a job. -/
def perform (job : Job) : Step m Unit := do
  let problem ← readProblem s job.input
  let t ← liftExcept (Grounding.ground problem job.options.keepStatic)
  if job.showsStats then s.report t.stats.text
  match job.output with
  | some path =>
    createFile s path
    s.write path (← solve s job t)
  | none => s.print (← solve s job t)

/-- Does what the arguments ask for. -/
def run (args : List String) : m Exit :=
  match Request.ofArguments args with
  | .help => do
    s.print helpText
    return .success
  | .version => do
    s.print versionText
    return .success
  | .misuse => do
    s.report helpText
    return .misuse
  | .job job => do
    match ← (perform s job).run with
    | .ok _ => return .success
    | .error e =>
      s.report (e.message ++ "\n")
      return .failure

end TemporalPlanning.CommandLine
