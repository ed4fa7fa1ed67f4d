import CrossShell.Program

/-!
# The command line tool

Reads the environment and the settings file, and prints what `CrossShell.run` says. It cannot start
other programs: every version stays unknown, and running a line fails.
-/
namespace CrossShell

/-- The environment variables that the program looks at. -/
def variableNames : List String := ["CMDX_SHELL", "PSModulePath", "SHELL", "PROMPT", "ComSpec"]

/-- What there is at a path. -/
def readState (path : String) : IO FileState := do
  try
    return .text (← IO.FS.readFile path).toList
  catch
    | .noFileOrDirectory .. => return .absent
    | _ => return .unreadable

/-- The machine that the tool runs on, as far as these words need it. -/
def readMachine (words : List Text) : IO Machine := do
  let vars ← variableNames.filterMapM fun name => do
    return (← IO.getEnv name).map fun value => (name.toList, value.toList)
  let home := (← IO.getEnv "HOME").getD ""
  let homeSettings ← readState (home ++ "/" ++ String.ofList defaultSettingsPath)
  let path := ((Options.parse words).toOption.bind (·.get? .config)).getD []
  let file ← readState (String.ofList path)
  return {
    var := fun key => vars.lookup key
    file := fun p => if p = path then file else .absent
    homeSettings
    locate := fun _ => false
    probe := fun _ => none
    start := fun _ => none }

end CrossShell

open CrossShell in
/-- Converts the command that the arguments give. -/
def main (args : List String) : IO UInt32 := do
  let words := args.map String.toList
  let outcome := run (← readMachine words) words
  IO.print (String.ofList outcome.output)
  IO.eprint (String.ofList outcome.complaint)
  return outcome.code.toUInt32
