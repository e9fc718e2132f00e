import CommandPack.CommandLine.Run

/-!
# The program

Reads the files that its arguments name and prints what the run leaves behind.
-/

open CommandPack

/-- Reads a file of the system. -/
def readSystemFile (path : String) : IO (Except ReadFailure String) := do
  try
    return decodeText (← IO.FS.readBinFile path)
  catch
    | .noFileOrDirectory .. => return .error .notFound
    | .inappropriateType .. => return .error .isDirectory
    | failure => return .error (.other (toString failure))

def main (arguments : List String) : IO UInt32 := do
  let files := ((Config.parse arguments).toOption.map Config.files).getD []
  let contents ← files.mapM fun path => return (path, ← readSystemFile path)
  let outcome := CommandLine.run (fun path => (contents.lookup path).getD (.error .notFound)) arguments
  IO.eprint outcome.stderr
  IO.print outcome.stdout
  return outcome.exit.toUInt32
