import TypeSchema.Run

/-!
# The program

The command line on the file system it is started in.
-/

namespace TypeSchema.Main

/-- Whether an action works. -/
def succeeds (action : IO Unit) : IO Bool := do
  try
    action
    return true
  catch _ => return false

instance : FileStore IO where
  -- A path that leads nowhere has no real path; whether the file can be read does not matter.
  isPresent path := succeeds do
    let _ ← IO.FS.realPath path
  readText? path := do
    try
      return some (← IO.FS.readFile path)
    catch _ => return none
  makeFolder path := succeeds (IO.FS.createDirAll path)
  writeText path text := succeeds (IO.FS.writeFile path text)

instance : Console IO where
  print text := IO.print text

/-- The short help of the program. -/
def usage : String :=
  "usage: --input PATH | --input-string TEXT [--output PATH] [--order fixed|topological]\n" ++
  "       [--strict] [--no-banner] [--config PATH] [--dump-registry] [-v]...\n"

/-- The text of a command line that is not carried out. -/
def explain : UsageError → String
  | .helpRequested => usage
  | .versionRequested => "zodgen 0.1.0\n"
  | .unknownArgument => "error: unexpected argument\n" ++ usage
  | .invalidValue => "error: a value is missing or not valid\n" ++ usage
  | .tooManyValues => "error: a flag takes no value\n" ++ usage
  | .conflict => "error: an argument is given twice, or two sources are given\n" ++ usage
  | .missingSource => "error: no source is given\n" ++ usage

/-- Reports a command line that is not carried out. -/
def refuse (e : UsageError) : IO UInt32 := do
  match e with
  | .helpRequested | .versionRequested =>
    IO.print (explain e)
    return 0
  | _ =>
    IO.eprint (explain e)
    return 2

/-- Carries out a command line. -/
def perform (args : List String) : IO UInt32 := do
  match CommandLine.parse args with
  | .error e => refuse e
  | .ok invocation =>
    match ← (invocation.perform (m := IO)).run with
    | .ok () => return 0
    | .error e =>
      let cause := (e.cause?.map fun c => ": " ++ c.message).getD ""
      IO.eprintln ("Error: " ++ e.message ++ cause)
      return 1

end TypeSchema.Main

/-- Runs the program on its arguments. -/
def main (args : List String) : IO UInt32 := TypeSchema.Main.perform args
