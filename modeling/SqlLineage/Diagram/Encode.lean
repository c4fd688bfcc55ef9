import SqlLineage.Diagram
import SqlLineage.Json

/-!
# Diagrams as JSON

The written form of a diagram. Fields without a value are left out, and so is an empty list of notices;
the order of the fields is part of the form.
-/

namespace SqlLineage
set_option autoImplicit false

def Column.toJson (c : Column) : Json :=
  .obj [("name", .str c.name), ("declared_type", .str c.declaredType),
    ("is_primary_key", .bool c.isPrimaryKey), ("is_foreign_key", .bool c.isForeignKey),
    ("is_grouping_key", .bool c.isGroupingKey), ("is_sort_key", .bool c.isSortKey),
    ("is_dist_key", .bool c.isDistKey)]

def Notice.toJson (n : Notice) : Json :=
  .obj [("kind", .str n.kind.label), ("subject", .str n.subject), ("message", .str n.message)]

def NodeStyle.toJson (s : NodeStyle) : Json :=
  .obj [("border_color", .str s.borderColor), ("background_color", .str s.backgroundColor),
    ("dashed", .bool s.dashed)]

def Node.toJson (n : Node) : Json :=
  .obj [("id", .str n.id), ("kind", .str n.kind.label), ("style", (NodeStyle.ofKind n.kind).toJson),
    ("columns", .arr (n.columns.map Column.toJson)),
    ("size", .obj [("width", .ofNat n.width), ("height", .ofNat n.height)])]

def Edge.toJson (e : Edge) : Json :=
  .obj ([("id", .str e.id), ("source", .str e.source), ("target", .str e.target)] ++
    Json.optionalField "source_column" e.sourceColumn ++
    Json.optionalField "target_column" e.targetColumn ++
    Json.optionalField "source_handle" e.sourceHandle ++
    Json.optionalField "target_handle" e.targetHandle ++
    [("kind", .str e.kind.label), ("calculated", .bool e.isCalculated), ("color", .str e.color.label),
      ("stroke", .str e.color.hex), ("animated", .bool e.isAnimated), ("dashed", .bool e.isDashed)] ++
    Json.optionalField "label" e.label?)

/-- The fields of a diagram. -/
def Diagram.fields (d : Diagram) : List (String × Json) :=
  [("nodes", .arr (d.nodes.map Node.toJson)), ("edges", .arr (d.edges.map Edge.toJson))] ++
    if d.notices.isEmpty then [] else [("notices", .arr (d.notices.map Notice.toJson))]

def Diagram.toJson (d : Diagram) : Json := .obj d.fields

end SqlLineage
