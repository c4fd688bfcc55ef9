import SqlLineage.Extraction

/-!
# Diagrams

The picture of an extraction: a node for every definition, an edge for every lineage record and for every
foreign key. The mere use of a table becomes an edge only if the user of the table has no lineage at all.

Edges lead the way data flows, from the source to the user; a foreign key leads from the table that
declares it to the table it refers to.

* `Layout`: the sizes of nodes.
* `Node`, `Edge`, `Diagram`: the picture; colours and line styles follow from what an edge means.
* `Diagram.ofExtraction`: the picture of an extraction.
-/

namespace SqlLineage
set_option autoImplicit false

/-! ## Nodes -/

structure Layout where
  baseHeight : Nat
  rowHeight : Nat
  nodeWidth : Nat
deriving DecidableEq

namespace Layout

def standard : Layout := ⟨60, 32, 240⟩

/-- The number from which the rows of a node are counted anew: a row count has 32 bits. -/
def rowLimit : Nat := 0x100000000

/-- The height of a node with a number of columns, one row for each. Only the number of rows is reduced to 32 bits.
The product and the sum are exact, which is what arithmetic of 32 bits gives as long as the height is below
`rowLimit`. -/
def nodeHeight (l : Layout) (columns : Nat) : Nat :=
  l.baseHeight + columns % rowLimit * l.rowHeight

end Layout

structure NodeStyle where
  borderColor : String
  backgroundColor : String
  dashed : Bool
deriving DecidableEq

/-- Definitions that the script does not declare itself have dashed frames. -/
def NodeStyle.ofKind : Definition.Kind → NodeStyle
  | .table => ⟨"#64748b", "#ffffff", false⟩
  | .view => ⟨"#3b82f6", "#eff6ff", false⟩
  | .cte => ⟨"#8b5cf6", "#f5f3ff", true⟩
  | .stub => ⟨"#94a3b8", "#f8fafc", true⟩

structure Node where
  id : String
  kind : Definition.Kind
  columns : List Column
  width : Nat
  height : Nat
deriving DecidableEq

def Node.ofDefinition (layout : Layout) (d : Definition) : Node :=
  ⟨d.name, d.kind, d.columns, layout.nodeWidth, layout.nodeHeight d.columns.length⟩

/-! ## Edges -/

inductive Edge.Meaning where
  | lineage (calculated : Bool)
  | foreignKey
  | uses
deriving DecidableEq

inductive Edge.Kind where
  | lineage
  | structural
deriving DecidableEq

inductive Edge.Color where
  | calculated
  | cteToCte
  | cteToView
  | plain
deriving DecidableEq

/-- An edge between two nodes, maybe between columns of theirs. -/
structure Edge where
  id : String
  source : String
  target : String
  sourceColumn : Option String
  targetColumn : Option String
  meaning : Edge.Meaning
  color : Edge.Color
deriving DecidableEq

namespace Edge

def Kind.label : Kind → String
  | .lineage => "lineage"
  | .structural => "structural"

def Color.label : Color → String
  | .calculated => "calculated"
  | .cteToCte => "cte_to_cte"
  | .cteToView => "cte_to_view"
  | .plain => "default"

def Color.hex : Color → String
  | .calculated => "#f59e0b"
  | .cteToCte => "#8b5cf6"
  | .cteToView => "#10b981"
  | .plain => "#3b82f6"

def kind (e : Edge) : Kind :=
  match e.meaning with
  | .lineage _ => .lineage
  | .foreignKey | .uses => .structural

def isCalculated (e : Edge) : Bool :=
  e.meaning == .lineage true

def isAnimated (e : Edge) : Bool :=
  e.kind == .lineage

def isDashed (e : Edge) : Bool :=
  e.meaning == .uses

def label? (e : Edge) : Option String :=
  match e.meaning with
  | .lineage true => some "ƒx"
  | .uses => some "uses"
  | _ => none

def sourceHandle (e : Edge) : Option String := e.sourceColumn.map ("src-" ++ ·)

def targetHandle (e : Edge) : Option String := e.targetColumn.map ("tgt-" ++ ·)

/-- The colour of a lineage edge: a calculation has its own, then it depends on both ends. -/
def lineageColor (calculated : Bool) (source : Option Definition.Kind) (target : Definition.Kind) :
    Color :=
  if calculated then .calculated
  else if source = some .cte ∧ target = .cte then .cteToCte
  else if source = some .cte ∧ target = .view then .cteToView
  else .plain

/-- The edge of the `i`-th lineage record of a definition. -/
def ofLineage (source : Option Definition.Kind) (owner : Definition) (i : Nat) (r : LineageRecord) :
    Edge :=
  { id := "e-lin-" ++ r.sourceTable ++ "." ++ r.sourceColumn ++ "-" ++ owner.name ++ "." ++
      r.targetColumn ++ "-" ++ toString i
    source := r.sourceTable
    target := owner.name
    sourceColumn := some r.sourceColumn
    targetColumn := some r.targetColumn
    meaning := .lineage r.isCalculated
    color := lineageColor r.isCalculated source owner.kind }

def ofUse (owner : Definition) (r : Reference) : Edge :=
  { id := "e-struc-" ++ r.table ++ "-" ++ owner.name
    source := r.table
    target := owner.name
    sourceColumn := none
    targetColumn := none
    meaning := .uses
    color := .plain }

/-- A column name, unless it is empty. -/
def named? (column : String) : Option String :=
  if column.isEmpty then none else some column

def ofKey (owner : Definition) (i : Nat) (r : Reference) : Edge :=
  { id := "e-" ++ owner.name ++ "-" ++ r.table ++ "-" ++ toString i
    source := owner.name
    target := r.table
    sourceColumn := named? r.localColumn
    targetColumn := named? r.column
    meaning := .foreignKey
    color := .plain }

/-- The edge of the `i`-th reference of a definition, if it is drawn. -/
def ofReference? (owner : Definition) (i : Nat) (r : Reference) : Option Edge :=
  if !r.isStructural then some (ofKey owner i r)
  else if owner.lineage.isEmpty then some (ofUse owner r)
  else none

/-- The edges of a definition; `kinds` tells the kinds of all definitions. -/
def ofDefinition (kinds : OrderedMap String Definition.Kind) (d : Definition) : List Edge :=
  (d.lineage.zipIdx.map fun r => ofLineage (kinds.find? r.1.sourceTable) d r.2 r.1) ++
    d.references.zipIdx.filterMap fun r => ofReference? d r.2 r.1

end Edge

/-! ## The whole picture -/

/-- Nodes and edges, and the notices of the extraction. -/
structure Diagram where
  nodes : List Node
  edges : List Edge
  notices : List Notice

namespace Diagram

/-- The kind of every definition by its exact name; of two of one name the later counts. -/
def kindsOf (ds : List Definition) : OrderedMap String Definition.Kind :=
  .ofList (ds.map fun d => (d.name, d.kind))

def ofDefinitions (layout : Layout) (ds : List Definition) (notices : List Notice) : Diagram :=
  ⟨ds.map (.ofDefinition layout), ds.flatMap (Edge.ofDefinition (kindsOf ds)), notices⟩

def ofExtraction (layout : Layout) (e : Extraction) : Diagram :=
  ofDefinitions layout e.definitions e.notices

def node? (d : Diagram) (id : String) : Option Node :=
  d.nodes.find? (·.id == id)

def edgesOfKind (d : Diagram) (kind : Edge.Kind) : List Edge :=
  d.edges.filter (·.kind == kind)

end Diagram
end SqlLineage
