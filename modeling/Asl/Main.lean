import Asl.CommandLine

/-!
# The command

Reads what the arguments name, draws a tape, runs the command and prints its outcome.
-/
open Asl.CommandLine

def Asl.CommandLine.entryAt (path : String) : IO Entry := do
  try
    return .file (← IO.FS.readBinFile path)
  catch
    | .permissionDenied .. => return .denied
    | .noFileOrDirectory .. => return .missing
    | .inappropriateType _ code _ => return if code = isDirectory then .directory else .missing
    | _ => return .missing
where
  /-- The system's code for reading a directory as a file. -/
  isDirectory : UInt32 := 21

def main (args : List String) : IO UInt32 := do
  let entries ← args.mapM fun path => return (path, ← entryAt path)
  let files : Files := fun path => (entries.lookup path).getD .missing
  let tape ← IO.getRandomBytes 4096
  let outcome := run args files tape.toList
  IO.print outcome.stdout
  IO.eprint outcome.stderr
  return outcome.exitCode.toUInt32
