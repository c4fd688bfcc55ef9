import SqlLineage.Query.Unwind
import SqlLineage.Script
import SqlLineage.Statement
import SqlLineage.Stub
import SqlLineage.Token.Scan

/-!
# Extraction

From a script to everything it says about tables and columns. The script loses its comments and is cut
into statements; each statement adds its definitions to an inventory, or a notice if it defines nothing;
in the end stubs are added for what is missing.

* `Extraction`: the result.
* `Statement.addTo`: what one statement adds.
* `Extraction.ofScript`: the whole way.
-/

namespace SqlLineage
open SqlLineage.Text
set_option autoImplicit false

/-- The definitions in the order in which they came, the columns observed of every table, and the
notices. -/
structure Extraction where
  definitions : List Definition
  discovered : OrderedMap String (List String)
  notices : List Notice

/-- The first definition of a name, up to ASCII case. -/
def Extraction.find? (e : Extraction) (name : String) : Option Definition :=
  e.definitions.find? fun d => sameFold d.name name

/-! ## One statement -/

namespace Statement

/-- Reads a query and files the definition that `f` makes of it. -/
def addQuery (inv : Inventory) (ts : List Token) (name : String) (kind : Definition.Kind)
    (f : Definition → Definition) : Inventory :=
  let u := (Query.ofTokens ts).unwind name kind inv .empty
  u.inventory.define (f u.definition)

/-- Adds what a statement defines. A bare query is called by the first unused name after
`resultName`. -/
def addTo (resultName : String) (inv : Inventory) : Statement → Inventory
  | .createTable name (.columns block) =>
    let inv := if block.closed then inv else inv.report (.unclosedBlock name)
    let r := block.read name
    (inv.absorb r).define r.definition
  | .createTable name (.query ts) => addQuery inv ts name .table id
  | .createTable name .empty => inv.define (.bare name .table)
  | .createView name columns ts => addQuery inv ts name .view (·.renameColumns columns)
  | .query ts => addQuery inv ts (inv.registry.unusedName resultName) .view id

/-- The first line of a statement, cut after sixty characters. -/
def summary (statement : String) : String :=
  let line := trim ((lines statement.toList).head?.getD [])
  if line.length > 60 then String.ofList (line.take 60 ++ ['.', '.', '.']) else String.ofList line

def addText (resultName : String) (inv : Inventory) (statement : String) : Inventory :=
  match ofTokens? (Token.scan statement) with
  | some s => s.addTo resultName inv
  | none => inv.report (.skipped (summary statement))

end Statement

/-! ## Whole scripts -/

def Inventory.finish (inv : Inventory) : Extraction :=
  let inv := inv.inferStubs
  { definitions := inv.registry.slots
    discovered := .ofList (inv.usage.tables.values.map fun u =>
      (inv.registry.canonicalName u.table, u.columns))
    notices := inv.notices }

def Inventory.ofStatements (resultName : String) (statements : List String) : Inventory :=
  statements.foldl (Statement.addText resultName) .empty

/-- Everything that a script says. Bare queries are called after `resultName`. -/
def Extraction.ofScript (script resultName : String) : Extraction :=
  (Inventory.ofStatements resultName (Script.statements (Comment.strip script))).finish

end SqlLineage
