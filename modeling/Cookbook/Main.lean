import Cookbook.CommandLine

/-!
# The program

Reads the files that a command needs, runs the command on them, prints its output and reports its
failure. What is printed is decided by `Command.run` alone.
-/

namespace Cookbook

/-- Why the operating system did not hand out a file. -/
def ReadFailure.ofSystem : IO.Error → ReadFailure
  | .noFileOrDirectory .. => .notFound
  | .inappropriateType _ 21 _ => .isDirectory
  | .inappropriateType _ 20 _ => .notDirectory
  | error => .system (toString error)

/-- The text of a file, or why it cannot be read. -/
def readFile (path : String) : IO (Except ReadFailure String) := do
  if path.toList.contains '\x00' then return .error .nullInPath
  try
    match String.fromUTF8? (← IO.FS.readBinFile path) with
    | some text => return .ok text
    | none => return .error .notText
  catch error => return .error (.ofSystem error)

/-- The files at some paths, read once. -/
def readFiles (paths : List String) : IO (List (String × Except ReadFailure String)) :=
  paths.mapM fun path => return (path, ← readFile path)

/-- Reads from files that have been read before. -/
def readFrom (files : List (String × Except ReadFailure String)) : ReadFile := fun path =>
  (files.lookup path).getD (.error .notFound)

/-- The outcome of a command on the files of the system. -/
def Command.runOnSystem (command : Command) : IO Run := do
  let named ← readFiles command.files
  let listed ←
    match command.manifest?.map (Manifest.load (readFrom named)) with
    | some (.ok manifest) => readFiles manifest.sources.allPaths
    | _ => pure []
  return command.run (readFrom (named ++ listed))

end Cookbook

open Cookbook in
/-- Runs the program. -/
def main (arguments : List String) : IO UInt32 := do
  match Command.parse? arguments with
  | none =>
    IO.eprintln "usage: compile | build | candidates | bind | lint, each with its arguments"
    return 2
  | some command =>
    let run ← command.runOnSystem
    IO.print run.output
    if let some report := run.report then IO.eprintln ("Error: " ++ report)
    return run.exitCode.toUInt32
