import StackLisp.CommandLine

/-!
# The program

Reads the standard input and the files to be loaded, and runs the command line
with random numbers that differ from run to run.
-/

open StackLisp CommandLine

/-- Why a file cannot be read. A folder can be opened like a file, and only reading
    from it fails, which is an error without a name. -/
def faultOf : IO.Error → FileFault
  | .inappropriateType (some _) _ _ => .notFolder
  | .inappropriateType none _ _ => .isFolder
  | .invalidArgument _ _ _ => .nameTooLong
  | .permissionDenied _ _ _ => .notPermitted
  | .userError _ => .notText
  | _ => .missing

/-- What a path leads to, or why it cannot be read. -/
def readSource (path : String) : IO (Except FileFault Source) := do
  if path = "/dev/stdin" then
    return .ok .stdin
  try
    return .ok (.text (← IO.FS.readFile path))
  catch e =>
    return .error (faultOf e)

/-- The files that the arguments ask for. -/
def filesToLoad (args : List String) : List String :=
  match parse {} args with
  | .run o => o.load
  | _ => []

/-- The program. -/
def main (args : List String) : IO UInt32 := do
  let sources ← (filesToLoad args).mapM fun path => return (path, ← readSource path)
  let stdin ← (← IO.getStdin).readToEnd
  let env : Config.Environment :=
    { trace := ← IO.getEnv "SECD_TRACE", maxSteps := ← IO.getEnv "SECD_MAX_STEPS" }
  let files := fun path => (sources.lookup path).getD (.error .missing)
  let draws : Draws := { seed := (← IO.getRandomBytes 8).toUInt64LE! }
  let result := run { args, stdin, files, env, draws }
  IO.print result.stdout
  IO.eprint result.stderr
  return result.exitCode.toUInt32
