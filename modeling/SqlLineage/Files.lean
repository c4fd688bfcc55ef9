import SqlLineage.Files.Path

/-!
# Files

What the command line needs of a file system, and a file system in memory that offers it.

* `FileSystem`: the four questions that are asked, in any monad.
* `FileTree`: a file system in memory, whose answers depend on nothing else.
-/

namespace SqlLineage
set_option autoImplicit false

/-! ## Asking for files -/

inductive ReadFailure where
  | notText
  | isDirectory
  | system (text : String)

def ReadFailure.message : ReadFailure → String
  | .notText => "stream did not contain valid UTF-8"
  | .isDirectory => "Is a directory (os error 21)"
  | .system text => text

/-- The questions to a file system. `entries` gives the names in a directory, in any order, or nothing if
it cannot be listed. -/
structure FileSystem (m : Type → Type) where
  currentDirectory : m String
  isDirectory : String → m Bool
  entries : String → m (Option (List String))
  readText : String → m (Except ReadFailure String)

/-! ## Files in memory -/

inductive FileNode where
  | directory
  | file (bytes : ByteArray)

/-- Files and directories by the names from the root to them. Every directory on the way to a place
exists too. -/
structure FileTree where
  current : List String
  nodes : List (List String × FileNode)

namespace FileTree

def at? (t : FileTree) (place : List String) : Option FileNode :=
  if (t.current :: t.nodes.map Prod.fst).any fun p => place.isPrefixOf p && place ≠ p then
    some .directory
  else if place = t.current then some .directory
  else t.nodes.lookup place

def hasDirectory (t : FileTree) (place : List String) : Bool :=
  match t.at? place with
  | some .directory => true
  | _ => false

def step (t : FileTree) (place : List String) (name : String) : Option (List String) :=
  if !t.hasDirectory place then none
  else if name.isEmpty ∨ name = "." then some place
  else if name = ".." then some place.dropLast
  else some (place ++ [name])

/-- The place that a path leads to. Everything on the way must be a directory, also in front of a slash
at the end. -/
def resolve? (t : FileTree) (path : String) : Option (List String) :=
  (path.splitOn "/").foldlM t.step (if Path.isAbsolute path then [] else t.current)

def lookup (t : FileTree) (path : String) : Option FileNode :=
  (t.resolve? path).bind t.at?

/-- The name of a place in the directory `directory`, if that is where it stands or leads through. -/
def entryOf? (directory place : List String) : Option String :=
  if directory.isPrefixOf place then (place.drop directory.length).head? else none

def entries (t : FileTree) (path : String) : Option (List String) :=
  match t.resolve? path with
  | some place =>
    if t.hasDirectory place then
      some ((t.current :: t.nodes.map Prod.fst).filterMap (entryOf? place)).eraseDups
    else none
  | none => none

def readText (t : FileTree) (path : String) : Except ReadFailure String :=
  match t.lookup path with
  | none => .error (.system "No such file or directory (os error 2)")
  | some .directory => .error .isDirectory
  | some (.file bytes) => match String.fromUTF8? bytes with
    | some text => .ok text
    | none => .error .notText

def fileSystem (t : FileTree) : FileSystem Id where
  currentDirectory := "/" ++ "/".intercalate t.current
  isDirectory path := match t.lookup path with
    | some .directory => true
    | _ => false
  entries := t.entries
  readText := t.readText

end FileTree
end SqlLineage
