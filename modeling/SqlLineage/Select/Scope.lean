import SqlLineage.Environment
import SqlLineage.Select.TableRef

/-!
# The scope of a query body

The tables that a body reads, under the names of their definitions, and every name by which the body may
call them: the name itself, the name as written, its last part, and the alias. Where two tables have the
same name, the later one has it.
-/

namespace SqlLineage.Select
open SqlLineage.Text
set_option autoImplicit false

/-- The tables of a body. `aliases` is filed under upper-cased names; `topLevel` holds what the outermost
`SELECT` reads. -/
structure Scope where
  aliases : OrderedMap String String
  referenced : List String
  topLevel : List String

namespace Scope

def empty : Scope := ⟨.empty, [], []⟩

def call (s : Scope) (table name : String) : Scope :=
  { s with aliases := s.aliases.insert (upper name) table }

/-- All names of a mentioned table, the later ones going before the earlier ones. -/
def namesOf (table : String) (t : TableRef) : List String :=
  [table, t.text] ++ (if t.parts.length > 1 then t.parts.getLast?.toList else []) ++ t.alias?.toList

/-- The scope with one more table, which is mentioned as `m` and defined under the name `table`. -/
def add (s : Scope) (table : String) (m : Mention) : Scope :=
  (namesOf table m.table).foldl (fun s name => s.call table name)
    { s with
      referenced := appendNew s.referenced table
      topLevel := if m.topLevel then appendNew s.topLevel table else s.topLevel }

def ofMentions (env : Environment) (ms : List Mention) : Scope :=
  ms.foldl (fun s m => s.add (env.resolve m.table.text) m) empty

def resolve? (s : Scope) (qualifier : String) : Option String :=
  s.aliases.find? (upper qualifier)

/-- The tables that a bare column may come from: those of the outermost `SELECT`, or all if it reads
none. -/
def sources (s : Scope) : List String :=
  if s.topLevel.isEmpty then s.referenced else s.topLevel

/-- Whether an unquoted word is no column: a keyword, or the name of a table in scope. -/
def isIgnored (s : Scope) (word : String) : Bool :=
  Keyword.isIgnored word || (s.resolve? word).isSome

end Scope
end SqlLineage.Select
