import TemporalPlanning.Json.Format
/-!
Options of grounding and encoding.
-/
set_option autoImplicit false

namespace TemporalPlanning

/-- How propositions are packed into variables. -/
inductive Grouping where
  /-- Cliques of the mutex graph, each grown from a proposition that is in none yet. -/
  | cliques
  /-- Connected components of the mutex graph, cut until every part is a clique. -/
  | components
deriving DecidableEq

namespace Grouping

def all : List Grouping := [.cliques, .components]

/-- Name in documents and on the command line. -/
def name : Grouping → String
  | .cliques => "cliques"
  | .components => "components"

/-- The grouping with a name. -/
def ofName? (name : String) : Option Grouping := all.find? fun g => g.name == name

instance : Format Grouping := ⟨fun g => .string g.name, Json.named? all name⟩

end Grouping

/-- What to do with a task. -/
structure Options where
  /-- Keep the variables that never change. -/
  keepStatic : Bool := false
  /-- Only compute mutexes; every proposition becomes a variable of its own. -/
  onlyMutex : Bool := false
  /-- Write the mutex pairs to a file. -/
  writesMutexFile : Bool := false
  mutexFile : String := "mutex.txt"
  grouping : Grouping := .cliques
  /-- Greatest number of passes of the mutex computation. -/
  passLimit : Nat := 10000
deriving DecidableEq

open Format in
/-- Every option may be left out. -/
instance : Format Options where
  write o := .record
    [("keep_static_data", write o.keepStatic), ("only_generate_mutex", write o.onlyMutex),
      ("generate_mutex_file", write o.writesMutexFile), ("mutex_file", write o.mutexFile),
      ("split", write o.grouping), ("mutex_pass_limit", write o.passLimit)]
  read? j := do
    let r ← j.record?
      ["keep_static_data", "only_generate_mutex", "generate_mutex_file", "mutex_file", "split",
        "mutex_pass_limit"]
    let default : Options := {}
    return {
      keepStatic := ← r.defaulted "keep_static_data" default.keepStatic
      onlyMutex := ← r.defaulted "only_generate_mutex" default.onlyMutex
      writesMutexFile := ← r.defaulted "generate_mutex_file" default.writesMutexFile
      mutexFile := ← r.defaulted "mutex_file" default.mutexFile
      grouping := ← r.defaulted "split" default.grouping
      passLimit := ← r.defaulted "mutex_pass_limit" default.passLimit }

end TemporalPlanning
