import SqlLineage.ColumnBlock

/-!
# Statements

Three kinds of statement define something: `CREATE TABLE`, `CREATE VIEW` and a bare query. Everything
else is no statement here.

* `Statement.ofTokens?`: the statement of a token list.
* `TableBody.ofTokens`: how a `CREATE TABLE` goes on behind the name. An `AS` that no query follows, as in
  `STORED AS PARQUET`, is a table option.
-/

namespace SqlLineage
open SqlLineage.Token
set_option autoImplicit false

inductive TableBody where
  | columns (block : ColumnBlock)
  | query (tokens : List Token)
  | empty

/-- A statement that defines something; a query is still a token list. -/
inductive Statement where
  | createTable (name : String) (body : TableBody)
  | createView (name : String) (columns : List String) (query : List Token)
  | query (tokens : List Token)

/-! ## The body of a table -/

namespace TableBody

/-- Whether the tokens begin a query, maybe in parentheses. -/
def startsQuery (ts : List Token) : Bool :=
  (ts.find? (·.kind != .leftParen)).any (·.isOneOf ["SELECT", "WITH"])

/-- The index of the first `AS` at depth zero that a query follows. -/
def asQuery? (ts : List Token) : Option Nat :=
  ((placed ts).find? fun p =>
    p.depth == 0 && p.token.isWord "AS" && startsQuery (ts.drop (p.index + 1))).map Placed.index

def queryAt (ts : List Token) (i : Nat) : TableBody :=
  .query (unwrapped (ts.drop (i + 1)))

/-- The column block that opens at `start` and closes at `close`. -/
def closedBlock (ts : List Token) (start close : Nat) : ColumnBlock :=
  ⟨Span.of ⟨start + 1, close⟩ ts, ts.take start, ts.drop (close + 1), true⟩

/-- The column block that opens at `start` and is never closed. -/
def openBlock (ts : List Token) (start : Nat) : ColumnBlock :=
  ⟨ts.drop (start + 1), ts.take start, [], false⟩

/-- The body behind the name of a table. A query wins over the column block in front of it, unless its
`AS` stands inside the block. -/
def ofTokens (ts : List Token) : TableBody :=
  match ts.findIdx? (·.kind == .leftParen), asQuery? ts with
  | none, none => .empty
  | none, some i => queryAt ts i
  | some start, as? =>
    match closing? ts start, as? with
    | some close, some i => if i < start ∨ close < i then queryAt ts i else
      .columns (closedBlock ts start close)
    | some close, none => .columns (closedBlock ts start close)
    | none, some i => if i < start then queryAt ts i else .columns (openBlock ts start)
    | none, none => .columns (openBlock ts start)

end TableBody

/-! ## Whole statements -/

namespace Statement

/-- The tokens behind one of the words, if it stands at their head. -/
def skipOneOf (keywords : List String) : List Token → List Token
  | [] => []
  | t :: ts => if t.isOneOf keywords then ts else t :: ts

/-- The tokens behind a word that must stand at their head. -/
def expect? (keyword : String) : List Token → Option (List Token)
  | [] => none
  | t :: ts => if t.isWord keyword then some ts else none

def skipIfNotExists (ts : List Token) : List Token :=
  match expect? "IF" ts with
  | some ts => skipOneOf ["EXISTS"] (skipOneOf ["NOT"] ts)
  | none => ts

/-- The tokens behind `OR REPLACE` or `OR ALTER`, if it stands at their head. -/
def skipOrReplace (ts : List Token) : List Token :=
  match expect? "OR" ts with
  | some ts => skipOneOf ["REPLACE", "ALTER"] ts
  | none => ts

/-- Words that say how long a table lives or where its rows are. -/
def storageWords : List String :=
  ["TEMP", "TEMPORARY", "TRANSIENT", "EXTERNAL", "UNLOGGED", "VOLATILE"]

/-- The name behind `TABLE` or `VIEW`, and the tokens behind it. -/
def name? (ts : List Token) : Option (String × List Token) :=
  let ts := skipIfNotExists ts
  (QualifiedName.read? ts 0).map fun n => (n.text, ts.drop n.next)

/-- The tokens behind the first `AS` at depth zero. -/
def behindAs? (ts : List Token) : Option (List Token) :=
  ((placed ts).find? fun p => p.depth == 0 && p.token.isWord "AS").map fun p =>
    ts.drop (p.index + 1)

/-- The view of a name, from the tokens behind it: a column list, if there is one, and a query. -/
def viewOf? (name : String) (ts : List Token) : Option Statement :=
  match (if opensAt ts 0 then nameList? ts 0 else some ⟨[], 0⟩) with
  | none => none
  | some columns => (behindAs? (ts.drop columns.next)).map fun query =>
    .createView name columns.names (unwrapped query)

def ofCreate? (ts : List Token) : Option Statement :=
  let ts := skipOneOf storageWords (skipOneOf ["GLOBAL", "LOCAL"] (skipOrReplace ts))
  match expect? "TABLE" ts with
  | some ts => (name? ts).map fun n => .createTable n.1 (.ofTokens n.2)
  | none =>
    match expect? "VIEW" (skipOneOf ["MATERIALIZED"] (skipOneOf ["SECURE", "RECURSIVE"] ts)) with
    | some ts => (name? ts).bind fun n => viewOf? n.1 n.2
    | none => none

def ofTokens? (ts : List Token) : Option Statement :=
  match ts with
  | [] => none
  | t :: rest =>
    if t.isWord "CREATE" then ofCreate? rest
    else if t.isOneOf ["WITH", "SELECT"] then some (.query (t :: rest))
    else none

end Statement
end SqlLineage
