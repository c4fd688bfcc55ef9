import SqlLineage.Extraction

/-!
# Operations on an inventory

The single steps from which an inventory can be built, without a script: filing a definition, noting a
use or a notice, reading a query or a column block with or without filing it, and inferring stubs.
-/

namespace SqlLineage
set_option autoImplicit false

/-- One step. `columns` is an explicit column list for the query's definition. -/
inductive Operation where
  | define (definition : Definition)
  | observe (use : TableColumn)
  | report (notice : Notice)
  | query (tokens : List Token) (name : String) (kind : Definition.Kind) (ctes : CteBindings)
      (columns : List String) (file : Bool)
  | block (block : ColumnBlock) (name : String) (file : Bool)
  | inferStubs

/-- What a step leads to: the inventory and, where the step has one, the definition as it was read, the
bindings behind a query, and the slot of a definition that was filed. -/
structure Outcome where
  inventory : Inventory
  definition? : Option Definition := none
  ctes? : Option CteBindings := none
  slot? : Option Nat := none

namespace Operation

def fileIf (file : Bool) (inv : Inventory) (d : Definition) (ctes? : Option CteBindings) : Outcome :=
  if file then ⟨inv.define d, some d, ctes?, some (inv.slotFor d)⟩ else ⟨inv, some d, ctes?, none⟩

def run (inv : Inventory) : Operation → Outcome
  | .define d => fileIf true inv d none
  | .observe use => { inventory := inv.observe use }
  | .report n => { inventory := inv.report n }
  | .query ts name kind ctes columns file =>
    let u := (Query.ofTokens ts).unwind name kind inv ctes
    fileIf file u.inventory (u.definition.renameColumns columns) (some u.ctes)
  | .block b name file =>
    let r := b.read name
    fileIf file (inv.absorb r) r.definition none
  | .inferStubs => { inventory := inv.inferStubs }

def runAll (inv : Inventory) (ops : List Operation) : Inventory :=
  ops.foldl (fun inv op => (op.run inv).inventory) inv

end Operation
end SqlLineage
