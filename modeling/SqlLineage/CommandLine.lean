import SqlLineage.Diagram.Encode
import SqlLineage.Files
import SqlLineage.Settings

/-!
# The command line

`extract [-c FILE] [--pretty] [--no-notices] PATH` writes the diagram of a script as JSON, or for a
directory one object with the diagrams of all scripts in it.

* `Options.ofArguments?`: what the arguments ask for, unless they are misused.
* `Failure`: what may go wrong afterwards, with its texts.
* `CommandLine.run`: the whole program over any file system.
-/

namespace SqlLineage
set_option autoImplicit false

/-! ## Arguments -/

structure Options where
  settings? : Option String
  path : String
  pretty : Bool
  noNotices : Bool
deriving DecidableEq

/-- Arguments as far as they were read. -/
structure Options.Pending where
  settings? : Option String := none
  path? : Option String := none
  pretty : Bool := false
  noNotices : Bool := false

namespace Options.Pending

/-- Takes the settings file; there is one at most, and its name is not empty. -/
def setSettings (o : Pending) (file : String) : Option Pending :=
  if file.isEmpty || o.settings?.isSome then none else some { o with settings? := some file }

def setPath (o : Pending) (path : String) : Option Pending :=
  if path.isEmpty || o.path?.isSome then none else some { o with path? := some path }

/-- Takes a flag, which may be given once. -/
def setFlag (o : Pending) (name : String) : Option Pending :=
  if name = "pretty" ∧ !o.pretty then some { o with pretty := true }
  else if name = "no-notices" ∧ !o.noNotices then some { o with noNotices := true }
  else none

def setLong (o : Pending) (name value : String) : Option Pending :=
  if name = "config" then o.setSettings value else none

inductive Argument where
  | separator
  | long (name : String) (value : Option String)
  | shortSettings (value : Option String)
  | unknown
  | plain (text : String)

/-- The text behind an equals sign, which may be missing. -/
def withoutEquals : List Char → String
  | '=' :: cs => String.ofList cs
  | cs => String.ofList cs

/-- What an argument looks like. A single dash is no option. -/
def Argument.ofText (text : String) : Argument :=
  match text.toList with
  | ['-', '-'] => .separator
  | '-' :: '-' :: cs =>
    .long (String.ofList (cs.takeWhile (· ≠ '='))) (match cs.dropWhile (· ≠ '=') with
      | _ :: value => some (String.ofList value)
      | [] => none)
  | ['-', 'c'] => .shortSettings none
  | '-' :: 'c' :: cs => .shortSettings (some (withoutEquals cs))
  | '-' :: _ :: _ => .unknown
  | _ => .plain text

def isValue (text : String) : Bool :=
  match Argument.ofText text with
  | .plain _ => true
  | _ => false

def read (o : Pending) : List String → Option Pending
  | [] => some o
  | arg :: rest => match Argument.ofText arg with
    | .separator => rest.foldlM setPath o
    | .unknown => none
    | .plain path => (o.setPath path).bind fun o => o.read rest
    | .long name (some value) => (o.setLong name value).bind fun o => o.read rest
    | .shortSettings (some value) => (o.setSettings value).bind fun o => o.read rest
    | .long name none =>
      if name = "config" then
        match rest with
        | value :: rest => if isValue value then (o.setSettings value).bind fun o => o.read rest else none
        | [] => none
      else (o.setFlag name).bind fun o => o.read rest
    | .shortSettings none => match rest with
      | value :: rest => if isValue value then (o.setSettings value).bind fun o => o.read rest else none
      | [] => none

end Options.Pending

/-- The options of a list of arguments, whose first one is the command. -/
def Options.ofArguments? : List String → Option Options
  | "extract" :: args => (Pending.read {} args).bind fun o => o.path?.map fun path =>
    ⟨o.settings?, path, o.pretty, o.noNotices⟩
  | _ => none

/-! ## Failures -/

inductive Failure where
  | settingsUnreadable (path : String)
  | settingsInvalid (path : String)
  | directoryUnreadable (path : String)
  | scriptUnreadable (path : String)

def Failure.message : Failure → String
  | .settingsUnreadable path => "Failed to read config file: " ++ path
  | .settingsInvalid path =>
    "Invalid config file " ++ path ++ ": Failed to parse config due to error:"
  | .directoryUnreadable path => "Failed to read sql directory " ++ path
  | .scriptUnreadable path => "Failed to read sql file " ++ path

inductive Result where
  | misused
  | failed (failure : Failure)
  | written (text : String)

/-! ## Running -/

namespace CommandLine

def scriptJson (o : Options) (s : Settings) (script : String) : Json :=
  let d := Diagram.ofScript script s
  (if o.noNotices then { d with notices := [] } else d).toJson

def written (o : Options) (j : Json) : Result :=
  .written ((if o.pretty then j.pretty 0 else j.compact) ++ "\n")

/-- The JSON value of a script of a directory, or of the failure to read it. -/
def entryJson (o : Options) (s : Settings) (path : String) : Except ReadFailure String → Json
  | .ok script => scriptJson o s script
  | .error e => .obj [("error", .str ("Could not read sql file " ++ path ++ " due to error: " ++
      e.message))]

/-- The names of scripts among the names in a directory, sorted. -/
def scriptNames (entries : List String) : List String :=
  (entries.filter (Path.hasExtension "sql")).mergeSort fun a b => decide (a ≤ b)

variable {m : Type → Type} [Monad m]

def settings (fs : FileSystem m) (o : Options) : m (Except Failure Settings) := do
  match o.settings? with
  | none => return .ok .standard
  | some path => match ← fs.readText path with
    | .error _ => return .error (.settingsUnreadable path)
    | .ok document => match Settings.ofToml? document with
      | none => return .error (.settingsInvalid path)
      | some s => return .ok s

/-- The fields of a directory: the scripts in it by their absolute paths. -/
def directoryFields (fs : FileSystem m) (o : Options) (s : Settings) (current : String) :
    List String → m (List (String × Json))
  | [] => return []
  | name :: names => do
    let path := Path.join o.path name
    let script ← fs.readText path
    let rest ← directoryFields fs o s current names
    return (Path.absolute current path, entryJson o s path script) :: rest

def extract (fs : FileSystem m) (o : Options) (s : Settings) : m Result := do
  if ← fs.isDirectory o.path then
    match ← fs.entries o.path with
    | none => return .failed (.directoryUnreadable o.path)
    | some entries =>
      let current ← fs.currentDirectory
      return written o (.obj (← directoryFields fs o s current (scriptNames entries)))
  else match ← fs.readText o.path with
    | .error _ => return .failed (.scriptUnreadable o.path)
    | .ok script => return written o (scriptJson o s script)

/-- Runs the program on its arguments. Settings are read before anything else. -/
def run (fs : FileSystem m) (args : List String) : m Result := do
  match Options.ofArguments? args with
  | none => return .misused
  | some o => match ← settings fs o with
    | .error failure => return .failed failure
    | .ok s => extract fs o s

end CommandLine
end SqlLineage
