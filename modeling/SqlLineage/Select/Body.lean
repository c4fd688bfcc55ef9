import SqlLineage.Inventory
import SqlLineage.Select.Grouping
import SqlLineage.Select.Projection

/-!
# Query bodies

A query body is read without its `WITH` list: the tables in scope, the output of the outermost `SELECT`,
the columns used anywhere else in the body, and the grouping keys. Every table in scope becomes a
reference of the query.
-/

namespace SqlLineage.Select
set_option autoImplicit false

def select? (ts : List Token) : Option Nat :=
  ts.findIdx? (·.isWord "SELECT")

def scopeOf (env : Environment) (ts : List Token) : Scope :=
  match select? ts with
  | some select =>
    .ofMentions env (keywordMentions ts (Token.depthAt ts select) ++ listMentions ts select)
  | none => .ofMentions env (keywordMentions ts 0)

/-- The columns used anywhere in a body, apart from the output aliases. -/
def bodyUsage (env : Environment) (scope : Scope) (ts : List Token) (aliases : List Nat) :
    List TableColumn :=
  ((ColumnRef.collect scope ts).filter fun r => !aliases.contains r.start).flatMap
    (observe env scope)

def read (env : Environment) (ts : List Token) (name : String) (kind : Definition.Kind) : Reading :=
  let scope := scopeOf env ts
  let references := scope.referenced.map Reference.uses
  match select? ts with
  | some select =>
    let p := Projection.read env scope ts select
    { definition := ⟨name, kind, markKeys ts select p.columns, references, p.lineage⟩
      observed := p.observed ++ bodyUsage env scope ts p.aliases
      notices := [] }
  | none =>
    { definition := ⟨name, kind, [Column.unparsed], references, []⟩
      observed := []
      notices := [Notice.noSelect name] }

end SqlLineage.Select
