import SqlLineage.Inventory
import SqlLineage.Keyword
import SqlLineage.Token.Bracket
import SqlLineage.Token.QualifiedName

/-!
# Column blocks

The bracketed block of a `CREATE TABLE` is a list of definitions. A comma outside inner parentheses
separates two of them, and so does a line break where the new line can begin a definition. A definition
is a table-level constraint, a column, or given up with a notice.

* `ColumnBlock.definitionsOf`: the definitions of a block.
* `Draft.addConstraint`, `Draft.addColumn`: what one definition says.
* `ColumnBlock.read`: the table that a block declares.
-/

namespace SqlLineage
open SqlLineage.Token
set_option autoImplicit false

/-- The tokens of a column block, and those before and behind its parentheses, where table options may
stand. -/
structure ColumnBlock where
  definitions : List Token
  before : List Token
  after : List Token
  closed : Bool

/-! ## Single definitions -/

namespace ColumnBlock

/-- Words that end the declared type of a column. -/
def typeEnds : List String :=
  ["PRIMARY", "NOT", "NULL", "DEFAULT", "REFERENCES", "UNIQUE", "CHECK", "COLLATE", "GENERATED",
   "IDENTITY", "AUTO_INCREMENT", "AUTOINCREMENT", "ENCODE", "SORTKEY", "DISTKEY", "COMMENT",
   "CONSTRAINT", "ON", "AS", "KEY", "CHARSET", "OPTIONS"]

/-- Words that go on with a type on the next line, as in `TIMESTAMP` / `WITH TIME ZONE`. -/
def typeContinuations : List String := ["WITH", "WITHOUT"]

def beginsDefinition (t : Token) : Bool :=
  t.isQuoted || (t.isIdentifier && !t.isOneOf typeEnds && !t.isOneOf typeContinuations)

def pushFirst (t : Token) : List (List Token) → List (List Token)
  | [] => [[t]]
  | ts :: rest => (t :: ts) :: rest

/-- The rest of the current definition, and the definitions behind it; `d` is the depth of the next token
and `last` the token before it. -/
def splitLines (d : Int) (last : Token) : List Token → List (List Token)
  | [] => [[]]
  | t :: ts =>
    let rest := pushFirst t (splitLines (d + t.depthChange) t ts)
    if d = 0 ∧ t.line ≠ last.line ∧ beginsDefinition t then [] :: rest else rest

/-- The definitions of a group of tokens without commas. -/
def definitionLines : List Token → List (List Token)
  | [] => []
  | t :: ts => pushFirst t (splitLines t.depthChange t ts)

def definitionsOf (ts : List Token) : List (List Token) :=
  (topLevel ts).flatMap definitionLines

/-- The tokens behind the first two neighbours that are the words `first` and `second`. -/
def behindPair? (first second : String) : List Token → Option (List Token)
  | a :: b :: ts =>
    if a.isWord first && b.isWord second then some ts else behindPair? first second (b :: ts)
  | _ => none

/-- The declared type at the head of a token list: its words, one space apart. -/
def declaredType? (ts : List Token) : Option String :=
  let words := ts.takeWhile fun t => match t.kind with
    | .word _ => !t.isOneOf typeEnds
    | _ => false
  if words.isEmpty then none else some (spelled words)

/-- The name of a declared column: quoted, or a word that is not reserved. -/
def columnName? (t : Token) : Option String :=
  t.identifier?.filter fun name => t.isQuoted || !Keyword.isReservedForColumns name

/-- A `REFERENCES` clause in the definition of the column `name`. -/
def columnReference? (name : String) (definition : List Token) : Option Reference :=
  match definition.dropWhile (!·.isWord "REFERENCES") with
  | [] => none
  | _ :: ts => (QualifiedName.read? ts 0).map fun table =>
    ⟨name, table.text, ((nameList? ts table.next).bind (·.names.head?)).getD ""⟩

/-- The references of a foreign key, read behind the words `FOREIGN KEY`. -/
def foreignKey? (ts : List Token) : Option (List Reference) :=
  match nameList? ts 0 with
  | none => none
  | some columns =>
    if wordAt ts columns.next "REFERENCES" then
      (QualifiedName.read? ts (columns.next + 1)).map fun table =>
        let targets := ((nameList? ts table.next).map NameList.names).getD []
        columns.names.zipIdx.map fun c => ⟨c.1, table.text, targets.getD c.2 ""⟩
    else none

end ColumnBlock

/-! ## A table in the making -/

/-- What the definitions read so far say about a table. -/
structure Draft where
  columns : List Column
  references : List Reference
  observed : List TableColumn
  notices : List Notice

namespace Draft
open ColumnBlock

def empty : Draft := ⟨[], [], [], []⟩

/-- Adds a reference, whose target counts as used. -/
def addReference (d : Draft) (r : Reference) : Draft :=
  { d with
    references := d.references ++ [r]
    observed := d.observed ++ [⟨r.table, r.column⟩] }

/-- Adds a reference of a foreign key and marks its column, if that is declared already. -/
def addKey (d : Draft) (r : Reference) : Draft :=
  { d.addReference r with
    columns := Column.update r.localColumn (fun c => { c with isForeignKey := true }) d.columns }

/-- Applies `f` to the first column of each name. -/
def mark (f : Column → Column) (d : Draft) (names : List String) : Draft :=
  { d with columns := names.foldl (fun cs name => Column.update name f cs) d.columns }

def drop (d : Draft) (n : Notice) : Draft :=
  { d with notices := d.notices ++ [n] }

/-- A table-level constraint: a foreign key, a primary key, or one that says nothing here. -/
def addConstraint (table : String) (d : Draft) (definition : List Token) : Draft :=
  match behindPair? "FOREIGN" "KEY" definition with
  | some ts => match foreignKey? ts with
    | some references => references.foldl addKey d
    | none => d.drop (.malformedKey table definition)
  | none => match behindPair? "PRIMARY" "KEY" definition with
    | some ts => match nameList? ts 0 with
      | some columns => d.mark (fun c => { c with isPrimaryKey := true }) columns.names
      | none => d
    | none => d

def columnOf (name type : String) (reference : Option Reference) (definition : List Token) : Column :=
  { name := name
    declaredType := type
    isPrimaryKey := (behindPair? "PRIMARY" "KEY" definition).isSome
    isForeignKey := reference.isSome
    isGroupingKey := false
    isSortKey := definition.any (·.isWord "SORTKEY")
    isDistKey := definition.any (·.isWord "DISTKEY") }

/-- A column: a name, a type, and modifiers. -/
def addColumn (table : String) (d : Draft) (definition : List Token) : Draft :=
  match definition.head?.bind columnName?, declaredType? definition.tail with
  | some name, some type =>
    let reference := columnReference? name definition
    let d := match reference with
      | some r => d.addReference r
      | none => d
    { d with columns := d.columns ++ [columnOf name type reference definition] }
  | _, _ => d.drop (.noColumn table definition)

def isConstraint (definition : List Token) : Bool :=
  definition.head?.any (·.isOneOf Keyword.constraints)

def add (table : String) (d : Draft) (definition : List Token) : Draft :=
  if isConstraint definition then d.addConstraint table definition else d.addColumn table definition

end Draft

/-! ## Whole blocks -/

namespace ColumnBlock

/-- The names of a table option such as `SORTKEY (a, b)` among the tokens. -/
def optionIn? (keyword : String) (ts : List Token) : Option (List String) :=
  (ts.findIdx? (·.isWord keyword)).bind fun i => (nameList? ts (i + 1)).map NameList.names

/-- The names of a table option before or behind the block. -/
def option (b : ColumnBlock) (keyword : String) : List String :=
  ((optionIn? keyword b.before) <|> (optionIn? keyword b.after)).getD []

def draft (b : ColumnBlock) (table : String) : Draft :=
  (((definitionsOf b.definitions).foldl (Draft.add table) .empty).mark
    (fun c => { c with isSortKey := true }) (b.option "SORTKEY")).mark
    (fun c => { c with isDistKey := true }) (b.option "DISTKEY")

def read (b : ColumnBlock) (table : String) : Reading :=
  let d := b.draft table
  ⟨⟨table, .table, d.columns, d.references, []⟩, d.observed, d.notices⟩

end ColumnBlock
end SqlLineage
