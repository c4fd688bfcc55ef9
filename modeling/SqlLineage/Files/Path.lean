/-!
# Paths

Paths are texts with a slash between the names of a place; they are compared and shown as they were
written. Two slashes at the head of a path are kept apart from one.

* `join`: the path of an entry of a directory.
* `absolute`: the path from the root on. Nothing is looked up, so `..` stays.
* `hasExtension`: what a name ends in.
-/

namespace SqlLineage.Path
set_option autoImplicit false

def names (path : String) : List String :=
  (path.splitOn "/").filter fun n => !n.isEmpty

def isAbsolute (path : String) : Bool :=
  path.toList.head? == some '/'

def join (directory name : String) : String :=
  if directory.toList.getLast? == some '/' then directory ++ name else directory ++ "/" ++ name

/-- The root as a path spells it: two slashes if there are exactly two. -/
def root (path : String) : String :=
  if (path.toList.takeWhile (· == '/')).length == 2 then "//" else "/"

/-- The path from the root on, for a path that is meant from the directory `current`. Names that only say
"here" are dropped. -/
def absolute (current path : String) : String :=
  let start := if isAbsolute path then root path else current
  ((names path).filter (· ≠ ".")).foldl join start

/-- Whether a name ends in a dot and the extension, with something before the dot. -/
def hasExtension (extension name : String) : Bool :=
  let ending := '.' :: extension.toList
  ending.isSuffixOf name.toList && ending.length < name.toList.length

end SqlLineage.Path
