import SqlLineage.Notice
import SqlLineage.Registry
import SqlLineage.Usage

/-!
# What has been found

The state of reading a script: the definitions, the columns that were observed, and the notices. A
statement is read against an inventory without changing it; what was read, a `Reading`, is then added.
-/

namespace SqlLineage
set_option autoImplicit false

/-- What one query body or column block says: a definition that is not filed yet, the columns of other
tables that it uses, and what could not be read. -/
structure Reading where
  definition : Definition
  observed : List TableColumn
  notices : List Notice

structure Inventory where
  registry : Registry
  usage : Usage
  notices : List Notice

namespace Inventory

def empty : Inventory := ⟨.empty, .empty, []⟩

def report (inv : Inventory) (n : Notice) : Inventory :=
  { inv with notices := inv.notices ++ [n] }

def observe (inv : Inventory) (o : TableColumn) : Inventory :=
  { inv with usage := inv.usage.record o }

/-- Adds what a reading observed and reports, but not its definition. -/
def absorb (inv : Inventory) (r : Reading) : Inventory :=
  { inv with usage := inv.usage.recordAll r.observed, notices := inv.notices ++ r.notices }

/-- Files a definition and reports the one that it replaces. -/
def define (inv : Inventory) (d : Definition) : Inventory :=
  let filed := inv.registry.define d
  { inv with
    registry := filed.registry
    notices := inv.notices ++ (filed.replaced.map Notice.replaced).toList }

/-- The slot that `define` puts a definition into. -/
def slotFor (inv : Inventory) (d : Definition) : Nat :=
  (inv.registry.define d).slot

@[simp] theorem registry_report (inv : Inventory) (n : Notice) :
    (inv.report n).registry = inv.registry := rfl

@[simp] theorem registry_absorb (inv : Inventory) (r : Reading) :
    (inv.absorb r).registry = inv.registry := rfl

@[simp] theorem usage_define (inv : Inventory) (d : Definition) :
    (inv.define d).usage = inv.usage := rfl

end Inventory
end SqlLineage
