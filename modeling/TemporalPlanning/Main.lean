import TemporalPlanning.CommandLine.Run
/-!
The program.
-/
set_option autoImplicit false

namespace TemporalPlanning.CommandLine

/-- Whether an action succeeds. -/
def succeeds (action : IO Unit) : IO Bool := do
  try
    action
    return true
  catch _ => return false

/-- The files and streams of the process. -/
def processSurroundings : Surroundings IO where
  read? path := do
    try
      return some (← IO.FS.readFile path)
    catch _ => return none
  create path := succeeds (IO.FS.writeFile path "")
  write path text := do
    let file ← IO.FS.Handle.mk path .readWrite
    file.putStr text
    file.flush
  print text := do
    let out ← IO.getStdout
    out.putStr text
    out.flush
  report text := do (← IO.getStderr).putStr text

end TemporalPlanning.CommandLine

open TemporalPlanning.CommandLine in
/-- Runs the program on its arguments. -/
def main (args : List String) : IO UInt32 := do
  let exit ← run processSurroundings args
  return exit.code.toUInt32
