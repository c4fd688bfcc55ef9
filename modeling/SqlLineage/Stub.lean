import SqlLineage.Inventory

/-!
# Stubs

A table that is referred to but not defined gets a stub, a definition whose columns are those that the
script uses. After that every reference leads to a definition, and it is spelled as the definition is.

* `Inventory.missing`: the names without a definition, once each, in order of reference.
* `Inventory.addStub`: files the stub of one name.
* `Inventory.inferStubs`: all of it.
-/

namespace SqlLineage
open SqlLineage.Text
set_option autoImplicit false

namespace Inventory

/-- Adds a name to a list of names that differ not only in case. -/
def addMissing (names : List String) (name : String) : List String :=
  if names.any fun n => upper n == upper name then names else names ++ [name]

/-- The names that definitions refer to and that have no definition, in the spelling first seen. -/
def missing (inv : Inventory) : List String :=
  ((inv.registry.slots.flatMap Definition.referenced).filter fun name =>
    (inv.registry.index.find? (upper name)).isNone).foldl addMissing []

/-- The columns of a stub: those observed, a star last. -/
def stubColumns (observed : List String) : List Column :=
  (observed.filter (· ≠ Column.starName) ++ observed.filter (· = Column.starName)).map
    Column.observed

/-- Files a stub for a name. If no column of it was observed, one column says so, and so does a notice. -/
def addStub (inv : Inventory) (name : String) : Inventory :=
  match stubColumns ((inv.usage.columns? name).getD []) with
  | [] => (inv.report (.unobserved name)).define ⟨name, .stub, [Column.unknownSchema], [], []⟩
  | columns => inv.define ⟨name, .stub, columns, [], []⟩

/-- The inventory in which every reference is spelled as the definition it leads to. -/
def canonicalize (inv : Inventory) : Inventory :=
  { inv with registry := inv.registry.mapReferenced inv.registry.canonicalName }

def inferStubs (inv : Inventory) : Inventory :=
  (inv.missing.foldl addStub inv).canonicalize

end Inventory
end SqlLineage
