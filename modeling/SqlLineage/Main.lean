import SqlLineage.CommandLine

/-!
# The program

The command line over the files of the system.
-/

namespace SqlLineage.CommandLine
set_option autoImplicit false

def failureOf (e : IO.Error) : ReadFailure :=
  match e with
  | .inappropriateType .. => .isDirectory
  | e => .system (toString e)

def textOf (bytes : ByteArray) : Except ReadFailure String :=
  match String.fromUTF8? bytes with
  | some text => .ok text
  | none => .error .notText

def systemFiles : FileSystem IO where
  currentDirectory := do return toString (← IO.currentDir)
  isDirectory path := do
    let current ← IO.currentDir
    (current / path).isDir
  entries path := do
    let current ← IO.currentDir
    try
      let found ← (current / path).readDir
      return some (found.toList.map fun entry => entry.fileName)
    catch _ => return none
  readText path := do
    let current ← IO.currentDir
    if ← (current / path).isDir then return .error .isDirectory
    try return textOf (← IO.FS.readBinFile path)
    catch e => return .error (failureOf e)

def usage : String :=
  "usage: extract [-c FILE] [--pretty] [--no-notices] PATH"

/-- Writes the result of a run and gives its exit code. -/
def report : Result → IO UInt32
  | .misused => do
    (← IO.getStderr).putStrLn usage
    return 2
  | .failed failure => do
    (← IO.getStderr).putStrLn ("Error: " ++ failure.message)
    return 1
  | .written text => do
    (← IO.getStdout).putStr text
    return 0

end SqlLineage.CommandLine

def main (args : List String) : IO UInt32 := do
  SqlLineage.CommandLine.report (← SqlLineage.CommandLine.run SqlLineage.CommandLine.systemFiles args)
