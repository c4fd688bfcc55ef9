import SqlLineage.OrderedMap
import SqlLineage.Text.Fold

/-!
# Observed columns

Which columns of which table a script uses. Tables are filed under their names in upper case, in the
order in which they were first seen; the columns of a table are kept in the spelling first seen, and no
two of them differ only in ASCII case.
-/

namespace SqlLineage
open SqlLineage.Text
set_option autoImplicit false

structure TableColumn where
  table : String
  column : String
deriving DecidableEq

/-- The columns seen of one table, and the first spelling of its name. -/
structure TableUsage where
  table : String
  columns : List String
deriving DecidableEq

/-- The tables seen so far, by upper-cased name. -/
structure Usage where
  tables : OrderedMap String TableUsage

namespace Usage

def empty : Usage := ⟨.empty⟩

/-- A list of columns with a new one at its end, unless it is there in some case. -/
def addColumn (columns : List String) (column : String) : List String :=
  if columns.any (sameFold · column) then columns else columns ++ [column]

/-- Notes one observation; an empty column name says nothing. -/
def record (u : Usage) (o : TableColumn) : Usage :=
  if o.column.isEmpty then u
  else
    let seen := (u.tables.find? (upper o.table)).getD ⟨o.table, []⟩
    ⟨u.tables.insert (upper o.table) ⟨seen.table, addColumn seen.columns o.column⟩⟩

def recordAll (u : Usage) (os : List TableColumn) : Usage :=
  os.foldl record u

def columns? (u : Usage) (table : String) : Option (List String) :=
  (u.tables.find? (upper table)).map TableUsage.columns

end Usage
end SqlLineage
