import SqlLineage.Registry
import SqlLineage.Usage

/-!
# The names a query sees

Inside a statement a table name means a common table expression of that statement, if there is one of
that name, and otherwise whatever the script calls so. A common table expression may be filed under
another name than the statement uses, so that it does not take a name that is defined already.

* `CteBindings`: for the names that a statement gives to its common table expressions, the names under
  which they are filed.
* `Environment.resolve`: the definition's name for a name in a query.
* `Environment.observed`: the use of a column. Columns of common table expressions are not noted, since
  those are defined by the statement itself.
-/

namespace SqlLineage
open SqlLineage.Text
set_option autoImplicit false

/-- The names of the common table expressions of a statement, and the names they are filed under. -/
structure CteBindings where
  names : OrderedMap String String

namespace CteBindings

def empty : CteBindings := ⟨.empty⟩

def bind (b : CteBindings) (name filed : String) : CteBindings :=
  ⟨b.names.insert (upper name) filed⟩

def filed? (b : CteBindings) (name : String) : Option String :=
  b.names.find? (upper name)

/-- Whether a common table expression of the statement is filed under the name. -/
def files (b : CteBindings) (name : String) : Bool :=
  b.names.values.any (sameFold · name)

end CteBindings

/-- What is defined when a query is read, and the common table expressions it may use. -/
structure Environment where
  registry : Registry
  ctes : CteBindings

namespace Environment

/-- The name of the definition that a name in a query means, or the name itself. -/
def resolve (env : Environment) (name : String) : String :=
  (env.ctes.filed? name).getD (env.registry.canonicalName name)

/-- The use of a column, unless its table is a common table expression of the statement. -/
def observed (env : Environment) (table column : String) : List TableColumn :=
  if env.ctes.files table then [] else [⟨table, column⟩]

end Environment
end SqlLineage
