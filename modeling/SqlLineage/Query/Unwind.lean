import SqlLineage.Query
import SqlLineage.Select.Body

/-!
# Unwinding a query

Every common table expression of a query becomes a definition of its own, filed before anything that may
use it; what remains is the main body, whose definition is handed back and not filed.

A common table expression never takes a name that is defined already: it is filed under an unused name,
and the statement's bindings lead from its own name to that one. Only a recursive one is bound before its
body is read, so that otherwise its name inside the body means whatever it meant outside.
-/

namespace SqlLineage
set_option autoImplicit false

/-- What unwinding leaves: everything found, the bindings of the statement, and the definition that the
main body gives. -/
structure Unwound where
  inventory : Inventory
  ctes : CteBindings
  definition : Definition

namespace Query

/-- Unwinds a query as the definition of `name`. -/
def unwind (q : Query) (name : String) (kind : Definition.Kind) (inv : Inventory)
    (ctes : CteBindings) : Unwound :=
  match q with
  | .body ts =>
    let r := Select.read ⟨inv.registry, ctes⟩ ts name kind
    ⟨inv.absorb r, ctes, r.definition⟩
  | .cte head definition rest =>
    let inv := if head.closed then inv else inv.report (.unclosedCte name head.name)
    let filed := inv.registry.unusedName head.name
    let inner := if head.recursive then ctes.bind head.name filed else ctes
    let u := definition.unwind filed .cte inv inner
    rest.unwind name kind (u.inventory.define (u.definition.renameColumns head.columns))
      (u.ctes.bind head.name filed)

end Query
end SqlLineage
