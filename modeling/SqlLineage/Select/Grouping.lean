import SqlLineage.Select.TableRef
import SqlLineage.Definition

/-!
# Grouping keys

The columns named behind `GROUP BY` are grouping keys. A key is named by its position, counted from one,
or by the last name in the item.
-/

namespace SqlLineage.Select
open SqlLineage.Text
set_option autoImplicit false

def groupByEnds : List String :=
  ["HAVING", "ORDER", "LIMIT", "OFFSET", "FETCH", "FOR", "QUALIFY", "WINDOW", "UNION", "EXCEPT",
   "INTERSECT"]

/-- The index of the first `GROUP BY` behind the `SELECT` at `select` and at its depth. -/
def groupBy? (ts : List Token) (select : Nat) : Option Nat :=
  let depth := Token.depthAt ts select
  (((Token.placed ts).drop (select + 1)).find? fun p =>
    p.depth == depth && p.token.isWord "GROUP" && Token.wordAt ts (p.index + 1) "BY").map
    Token.Placed.index

def groupItems (ts : List Token) (select : Nat) : List (List Token) :=
  match groupBy? ts select with
  | none => []
  | some i =>
    Token.topLevel (Token.Span.of ⟨i + 2, clauseEnd ts (i + 2) (Token.depthAt ts select) groupByEnds⟩
      ts)

def ordinal? (text : String) : Option Nat :=
  if text.toList.all Char.isDigit && !text.isEmpty then
    some (text.toList.foldl (fun n c => 10 * n + (c.toNat - 48)) 0)
  else none

inductive GroupKey where
  | position (text : String)
  | called (name : String)
  | unnamed
deriving DecidableEq

/-- A single number is a position; any other item is meant by its last name. -/
def GroupKey.ofItem (item : List Token) : GroupKey :=
  match item with
  | [⟨.number text, _, _, _⟩] => .position text
  | _ => match item.reverse.findSome? Token.identifier? with
    | some name => .called name
    | none => .unnamed

def asKey (c : Column) : Column := { c with isGroupingKey := true }

def markKey (columns : List Column) (key : GroupKey) : List Column :=
  match key with
  | .position text => match ordinal? text with
    | some (n + 1) => columns.modify n asKey
    | _ => columns
  | .called name => columns.map fun c => if sameFold c.name name then asKey c else c
  | .unnamed => columns

def markKeys (ts : List Token) (select : Nat) (columns : List Column) : List Column :=
  ((groupItems ts select).map GroupKey.ofItem).foldl markKey columns

end SqlLineage.Select
