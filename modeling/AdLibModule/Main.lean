import AdLibModule.Inspection

/-!
The command line: reads the files that are named, and prints what the run prints. Help, and the
answer to arguments that are not understood, is the line on usage alone.
-/
namespace AdLibModule

/-- How the command is used. -/
def usage : String := "Usage: a2m-info [OPTIONS] <FILES>...\n"

/-- The bytes of each file that can be read. -/
def readFiles : List String → IO (List (String × Array UInt8))
  | [] => return []
  | path :: paths => do
    let rest ← readFiles paths
    try
      let bytes ← IO.FS.readBinFile path
      return (path, bytes.data) :: rest
    catch _ => return rest

end AdLibModule

open AdLibModule in
/-- Shows the modules that the arguments name. -/
def main (arguments : List String) : IO UInt32 := do
  match Options.ofArguments arguments with
  | .error .help =>
    IO.print usage
    return 0
  | .error .usage =>
    IO.eprint usage
    return 2
  | .ok options =>
    let files ← readFiles options.files
    let result := Inspection.runArguments arguments (files.lookup ·)
    IO.print result.output
    IO.eprint result.errors
    return result.status.toUInt32
