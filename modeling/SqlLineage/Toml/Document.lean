import SqlLineage.OrderedMap
import SqlLineage.Toml.Scalar

/-!
# Settings documents

A TOML document is a sequence of lines: a header opens a table or a further element of an array of
tables, and a line `key = value` puts a value into the table opened last. A document is refused if a line
cannot be read or if it defines anything twice.

* `Item`: what a key leads to.
* `Section.put`, `Section.openTable`, `Section.openElement`: how lines build up the tree; each refuses to
  define anything twice.
* `Document.read?`: the tree of a document.
-/

namespace SqlLineage.Toml
open Reader
set_option autoImplicit false

/-- How a table came into being. An implicit one was only passed through on the way to another, and a
dotted one came from a dotted key; only dotted tables can grow by dotted keys. -/
structure Origin where
  implicit : Bool
  dotted : Bool
deriving DecidableEq

namespace Origin

/-- A table of a header, or the document itself. -/
def explicit : Origin := ⟨false, false⟩

/-- A table on the way of a key; `dotted` says whether the key is one of `key = value`. -/
def passed (dotted : Bool) : Origin := ⟨true, dotted⟩

end Origin

/-- What a key leads to. Values on a line are closed: what an inline table holds is final. -/
inductive Item where
  | text (s : String)
  | integer (n : Int)
  | float
  | boolean (b : Bool)
  | dateTime
  | list (items : List Item)
  | inline (fields : List (String × Item))
  | table (origin : Origin) (fields : List (String × Item))
  | tables (elements : List (List (String × Item)))

structure Section where
  origin : Origin
  fields : List (String × Item)

namespace Section

def empty : Section := ⟨.explicit, []⟩

def set (s : Section) (key : String) (item : Item) : Section :=
  ⟨s.origin, OrderedMap.set key item s.fields⟩

/-- Changes the table that a path leads to. Tables that are missing on the way are made; of an array of
tables the path takes the last element. A path of a `key = value` line, which is `dotted`, does not lead
through a table that has a header. -/
def descend (dotted : Bool) (f : Section → Option Section) : List String → Section → Option Section
  | [], s => f s
  | key :: path, s => match s.fields.lookup key with
    | none => (descend dotted f path ⟨.passed dotted, []⟩).map fun t =>
      s.set key (.table t.origin t.fields)
    | some (.table origin fields) =>
      if dotted && !origin.implicit then none
      else (descend dotted f path ⟨origin, fields⟩).map fun t => s.set key (.table t.origin t.fields)
    | some (.tables elements) =>
      (descend dotted f path ⟨.explicit, elements.getLast?.getD []⟩).map fun t =>
        s.set key (.tables (elements.dropLast ++ [t.fields]))
    | some _ => none

/-- Puts a value under a key, with the path that a dotted key goes first. -/
def put (path : List String) (key : String) (value : Item) : Section → Option Section :=
  descend true (fun s =>
    if s.origin.dotted == path.isEmpty || (s.fields.lookup key).isSome then none
    else some (s.set key value)) path

/-- Opens the table of a header. A table that was only passed through may be opened, once. -/
def openTable (path : List String) (key : String) : Section → Option Section :=
  descend false (fun s => match s.fields.lookup key with
    | none => some (s.set key (.table .explicit []))
    | some (.table origin fields) =>
      if origin.implicit && !origin.dotted then some (s.set key (.table .explicit fields)) else none
    | some _ => none) path

/-- Opens a further element of an array of tables. -/
def openElement (path : List String) (key : String) : Section → Option Section :=
  descend false (fun s => match s.fields.lookup key with
    | none => some (s.set key (.tables [[]]))
    | some (.tables elements) => some (s.set key (.tables (elements ++ [[]])))
    | some _ => none) path

end Section

/-! ## Keys and values -/

/-- The greatest number of parts of a key plus one, and of lists and tables inside one another plus
one. -/
def depthLimit : Nat := 80

def isKeyChar (c : Char) : Bool :=
  c.isAlphanum || c == '-' || c == '_'

def keyPart : Reader String :=
  orElse basicText (orElse literalText ((plus (one isKeyChar)).map String.ofList))

/-- A key, as the path before its last part, and that part. -/
def key : Reader (List String × String) :=
  ((separated (next blank (before keyPart blank)) (expect '.')).filter fun parts =>
    parts.length < depthLimit).map fun parts => (parts.dropLast, parts.getLast?.getD "")

def scalar : Reader Item :=
  orElse (text.map .text) <| orElse (dateTime.map fun _ => .dateTime) <|
    orElse (float.map fun _ => .float) <| orElse (integer.map .integer) <|
      orElse ((expectAll "true".toList).map fun _ => .boolean true)
        ((expectAll "false".toList).map fun _ => .boolean false)

/-- A list in brackets. Lines may break in it, and a comma may stand at its end. -/
def listOf (value : Reader Item) : Reader Item :=
  let item := next gap (before value gap)
  (next (expect '[') (before (before (optional (before (separated item (expect ','))
    (optional (expect ',')))) gap) (expect ']'))).map fun items => .list (items.getD [])

/-- A table on one line, made by putting in one key after the other. -/
def inlineOf (value : Reader Item) : Reader Item :=
  let pair := key.bind fun k => next (expect '=') (next blank (before
    (value.map fun v => (k.1, k.2, v)) blank))
  (next (expect '\x7b') (before (before (optional (separated pair (expect ','))) blank)
    (expect '\x7d'))).bind fun pairs s =>
      ((pairs.getD []).foldlM (fun t p => Section.put p.1 p.2.1 p.2.2 t) Section.empty).map fun t =>
        (.inline t.fields, s)

/-- A value with at most `depth` lists and tables inside one another. -/
def value : Nat → Reader Item
  | 0 => scalar
  | depth + 1 => orElse scalar (orElse (listOf (value depth)) (inlineOf (value depth)))

/-! ## Lines -/

inductive Line where
  | table (path : List String) (key : String)
  | element (path : List String) (key : String)
  | pair (path : List String) (key : String) (value : Item)

/-- A header, of an array of tables if its brackets are doubled. -/
def header : Reader Line := fun s =>
  match s with
  | '[' :: '[' :: s =>
    (before (before key (expectAll [']', ']'])) lineEnd).map (fun k => Line.element k.1 k.2) s
  | '[' :: s => (before (before key (expect ']')) lineEnd).map (fun k => Line.table k.1 k.2) s
  | _ => none

def pair : Reader Line :=
  key.bind fun k => next (expect '=') <| next blank <|
    (before (value (depthLimit - 1)) lineEnd).map fun v => .pair k.1 k.2 v

/-- A line, which may be empty; blanks may stand at its head. -/
def line : Reader (Option Line) :=
  next blank (before (orElse ((orElse header pair).map some) (lineEnd.map fun _ => none)) blank)

/-- The lines of a document, if all of it can be read. A byte order mark may stand first. -/
def linesOf? (s : List Char) : Option (List Line) :=
  let s := if s.head? = some '\uFEFF' then s.tail else s
  match many line s with
  | (ls, []) => some (ls.filterMap id)
  | _ => none

/-! ## Documents -/

/-- A document as far as it was read: the tree, and the path to the table opened last. -/
structure Document where
  root : Section
  current : List String

namespace Document

def empty : Document := ⟨.empty, []⟩

def add (d : Document) : Line → Option Document
  | .table path key => (d.root.openTable path key).map fun root => ⟨root, path ++ [key]⟩
  | .element path key => (d.root.openElement path key).map fun root => ⟨root, path ++ [key]⟩
  | .pair path key value =>
    (d.root.descend false (Section.put path key value) d.current).map fun root => ⟨root, d.current⟩

def read? (s : String) : Option (List (String × Item)) :=
  match linesOf? s.toList with
  | none => none
  | some ls => (ls.foldlM add empty).map fun d => d.root.fields

end Document
end SqlLineage.Toml
