import SqlLineage.Diagram
import SqlLineage.Toml.Document

/-!
# Settings

What a user may choose: the sizes of nodes, and the name that bare queries are called by. A settings
document names what differs from the standard; keys that mean nothing here are passed over, but a value
of the wrong type is refused.
-/

namespace SqlLineage
set_option autoImplicit false

structure Settings where
  layout : Layout
  queryResultName : String
deriving DecidableEq

def Settings.standard : Settings := ⟨.standard, "Query Result"⟩

/-! ## Reading settings -/

namespace Settings
open Toml

/-- A size: a whole number of 32 bits. -/
def size? : Item → Option Nat
  | .integer n => if 0 ≤ n ∧ n < 0x100000000 then some n.toNat else none
  | _ => none

def sizeOr (standard : Nat) (item : Option Item) : Option Nat :=
  match item with
  | some item => size? item
  | none => some standard

/-- A layout from its three sizes, each of which may be missing. -/
def layoutOf? (baseHeight rowHeight nodeWidth : Option Item) : Option Layout :=
  match sizeOr Layout.standard.baseHeight baseHeight, sizeOr Layout.standard.rowHeight rowHeight,
    sizeOr Layout.standard.nodeWidth nodeWidth with
  | some b, some r, some w => some ⟨b, r, w⟩
  | _, _, _ => none

def layoutOfFields? (fields : List (String × Item)) : Option Layout :=
  layoutOf? (fields.lookup "base_height") (fields.lookup "row_height") (fields.lookup "node_width")

/-- A layout: a table, or a list of sizes in the order base height, row height, node width. A date-time
counts as a table that names no size. -/
def layout? : Item → Option Layout
  | .table _ fields | .inline fields => layoutOfFields? fields
  | .list items => layoutOf? items[0]? items[1]? items[2]?
  | .dateTime => some .standard
  | _ => none

def ofFields? (fields : List (String × Item)) : Option Settings :=
  let layout := match fields.lookup "layout" with
    | some item => layout? item
    | none => some Layout.standard
  match layout, fields.lookup "query_result_name" with
  | some layout, none => some ⟨layout, standard.queryResultName⟩
  | some layout, some (.text name) => some ⟨layout, name⟩
  | _, _ => none

/-- The settings of a document, unless it cannot be read or a value has the wrong type. -/
def ofToml? (document : String) : Option Settings :=
  (Document.read? document).bind ofFields?

end Settings

def Diagram.ofScript (script : String) (s : Settings) : Diagram :=
  .ofExtraction s.layout (.ofScript script s.queryResultName)

end SqlLineage
