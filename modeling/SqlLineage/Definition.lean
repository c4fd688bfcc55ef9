import SqlLineage.Text.Fold

/-!
# Definitions

What a script says about one table, view or common table expression: its columns, the objects it refers
to, and which column of which source each of its columns comes from.

* `Column`, `Reference`, `LineageRecord`: the parts of a definition.
* `Definition`: a named object. A table that is only referred to gets a definition of kind `stub`.
* `Definition.renameColumns`: an explicit column list takes effect; lineage follows the columns.
* `Definition.redirect`: references to one name become references to another.
-/

namespace SqlLineage
open SqlLineage.Text
set_option autoImplicit false

/-! ## Columns -/

/-- A column. Of a derived column the declared type only says how it was derived. -/
structure Column where
  name : String
  declaredType : String
  isPrimaryKey : Bool := false
  isForeignKey : Bool := false
  isGroupingKey : Bool := false
  isSortKey : Bool := false
  isDistKey : Bool := false
deriving DecidableEq

namespace Column

def starName : String := "*"

/-- A column that is a column of a source as it stands. -/
def mapped (name : String) : Column := ⟨name, "Mapped", false, false, false, false, false⟩

/-- A column that is computed. -/
def calculated (name : String) : Column := ⟨name, "Calculated", false, false, false, false, false⟩

/-- A column of a stub, known only because a query uses it. -/
def observed (name : String) : Column := ⟨name, "Source", false, false, false, false, false⟩

/-- Stands for the columns of a table of which nothing is known. -/
def unknownSchema : Column := ⟨"Unknown Schema", "Stub", false, false, false, false, false⟩

/-- Stands for the columns of a query that could not be read. -/
def unparsed : Column := ⟨"Unknown Cols", "SQL", false, false, false, false, false⟩

/-- Whether the column stands for a schema that is not known. -/
def isPlaceholder (c : Column) : Bool :=
  (c.name == unknownSchema.name && c.declaredType == unknownSchema.declaredType) ||
    (c.name == unparsed.name && c.declaredType == unparsed.declaredType)

/-- The columns after `f` has changed the first one of a name, up to ASCII case. -/
def update (name : String) (f : Column → Column) : List Column → List Column
  | [] => []
  | c :: cs => if sameFold c.name name then f c :: cs else c :: update name f cs

@[simp] theorem length_update (name : String) (f : Column → Column) (cs : List Column) :
    (update name f cs).length = cs.length := by
  induction cs with
  | nil => rfl
  | cons c cs ih => by_cases h : sameFold c.name name <;> simp [update, h, ih]

end Column

/-! ## References and lineage -/

/-- A reference to another table: a foreign key, or the mere use of a table if it names no column. -/
structure Reference where
  localColumn : String
  table : String
  column : String
deriving DecidableEq

def Reference.uses (table : String) : Reference := ⟨"", table, ""⟩

def Reference.isStructural (r : Reference) : Bool :=
  r.localColumn.isEmpty && r.column.isEmpty

/-- The column `targetColumn` of the owner comes from `sourceTable.sourceColumn`. -/
structure LineageRecord where
  sourceTable : String
  sourceColumn : String
  targetColumn : String
  isCalculated : Bool
deriving DecidableEq

/-! ## Definitions -/

inductive Definition.Kind where
  | table
  | view
  | cte
  | stub
deriving DecidableEq

def Definition.Kind.label : Definition.Kind → String
  | .table => "table"
  | .view => "view"
  | .cte => "cte"
  | .stub => "stub"

/-- A named object of the script. -/
structure Definition where
  name : String
  kind : Definition.Kind
  columns : List Column
  references : List Reference
  lineage : List LineageRecord
deriving DecidableEq

namespace Definition

def bare (name : String) (kind : Kind) : Definition := ⟨name, kind, [], [], []⟩

def columnIndex? (d : Definition) (name : String) : Option Nat :=
  d.columns.findIdx? fun c => sameFold c.name name

/-- Whether the columns are a real schema that `*` can stand for. -/
def hasKnownSchema (d : Definition) : Bool :=
  d.columns.head?.any fun c => !c.isPlaceholder

/-! ## Explicit column lists -/

def retarget (old new : String) (rs : List LineageRecord) : List LineageRecord :=
  rs.map fun r => if r.targetColumn = old then { r with targetColumn := new } else r

def renamed : List Column → List String → List Column
  | c :: cs, n :: ns => { c with name := n } :: renamed cs ns
  | cs, _ => cs

/-- The definition under an explicit column list: column by column, a column takes its new name and the
lineage records that end in its old name follow. -/
def renameColumns (d : Definition) (names : List String) : Definition :=
  { d with
    columns := renamed d.columns names
    lineage := ((d.columns.map Column.name).zip names).foldl (fun rs p => retarget p.1 p.2 rs)
      d.lineage }

theorem renameColumns_nil (d : Definition) : d.renameColumns [] = d := by
  have hrenamed : renamed d.columns [] = d.columns := by
    cases d.columns <;> rfl
  simp only [renameColumns, hrenamed, List.zip_nil_right, List.foldl_nil]

@[simp] theorem name_renameColumns (d : Definition) (names : List String) :
    (d.renameColumns names).name = d.name := rfl

@[simp] theorem kind_renameColumns (d : Definition) (names : List String) :
    (d.renameColumns names).kind = d.kind := rfl

@[simp] theorem references_renameColumns (d : Definition) (names : List String) :
    (d.renameColumns names).references = d.references := rfl

/-- An explicit column list changes nothing of a lineage record but its target. -/
theorem map_foldl_retarget {α : Type} {f : LineageRecord → α}
    (hf : ∀ (r : LineageRecord) (new : String), f { r with targetColumn := new } = f r) (ps : List (String × String))
    (rs : List LineageRecord) : (ps.foldl (fun rs p => retarget p.1 p.2 rs) rs).map f = rs.map f := by
  induction ps generalizing rs with
  | nil => rfl
  | cons p ps ih =>
    rw [List.foldl_cons, ih, retarget, List.map_map]
    refine List.map_congr_left fun r _ => ?_
    rw [Function.comp_apply]
    split
    · exact hf r p.2
    · rfl

/-! ## Changing what references say -/

def mapReferenced (f : String → String) (d : Definition) : Definition :=
  { d with
    references := d.references.map fun r => { r with table := f r.table }
    lineage := d.lineage.map fun r => { r with sourceTable := f r.sourceTable } }

/-- References spelled exactly `old` become references to `new`. -/
def redirect (old new : String) (d : Definition) : Definition :=
  d.mapReferenced fun n => if n = old then new else n

/-- All table names that the definition refers to, references first. -/
def referenced (d : Definition) : List String :=
  d.references.map Reference.table ++ d.lineage.map LineageRecord.sourceTable

@[simp] theorem name_mapReferenced (f : String → String) (d : Definition) :
    (d.mapReferenced f).name = d.name := rfl

@[simp] theorem kind_mapReferenced (f : String → String) (d : Definition) :
    (d.mapReferenced f).kind = d.kind := rfl

theorem referenced_mapReferenced (f : String → String) (d : Definition) :
    (d.mapReferenced f).referenced = d.referenced.map f := by
  simp [referenced, mapReferenced, Function.comp_def]

@[simp] theorem name_redirect (old new : String) (d : Definition) :
    (d.redirect old new).name = d.name := rfl

end Definition
end SqlLineage
