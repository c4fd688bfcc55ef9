import SqlLineage.Select.ColumnRef

/-!
# What a SELECT puts out

The items between `SELECT` and the table list become the columns of the query, and each item says where
its column comes from.

* `projectionSpan`: the tokens of the items.
* `starOf?`, `splitAlias`: whether an item is `*` or `t.*`, and the alias of any other.
* `Projection.addStar`, `Projection.addExpr`: what one item adds.
* `Projection.read`: all items in order.
-/

namespace SqlLineage.Select
set_option autoImplicit false

/-! ## The items -/

/-- The index behind the closing parenthesis of the one at `i`, or the number of tokens. -/
def behindGroup (ts : List Token) (i : Nat) : Nat :=
  match Token.closing? ts i with
  | some close => close + 1
  | none => ts.length

/-- The index behind `DISTINCT`, `DISTINCT ON ( ... )` or `ALL`, if one of them stands at `i`. -/
def behindQuantifier (ts : List Token) (i : Nat) : Nat :=
  if Token.wordAt ts i "DISTINCT" then
    if Token.wordAt ts (i + 1) "ON" && Token.opensAt ts (i + 2) then behindGroup ts (i + 2) else i + 1
  else if Token.wordAt ts i "ALL" then i + 1
  else i

def behindCount (ts : List Token) (i : Nat) : Nat :=
  match ts[i]?.map Token.kind with
  | some .leftParen => behindGroup ts i
  | some (.number _) => i + 1
  | _ => i

/-- The index behind `TOP n` or `TOP n PERCENT`, if it stands at `i`. -/
def behindTop (ts : List Token) (i : Nat) : Nat :=
  if Token.wordAt ts i "TOP" then
    let j := behindCount ts (i + 1)
    if Token.wordAt ts j "PERCENT" then j + 1 else j
  else i

def projectionEnds : List String := ["FROM", "INTO", "UNION", "EXCEPT", "INTERSECT"]

/-- The index of the token that ends the items: one of `projectionEnds` at depth zero, or a parenthesis
that closes more than the items opened. `i` is the index of the first token and `d` its depth. -/
def projectionEnd (i : Nat) (d : Int) : List Token → Nat
  | [] => i
  | t :: ts => match t.kind with
    | .leftParen => projectionEnd (i + 1) (d + 1) ts
    | .rightParen => if d - 1 < 0 then i else projectionEnd (i + 1) (d - 1) ts
    | _ => if d = 0 ∧ t.isOneOf projectionEnds then i else projectionEnd (i + 1) d ts

def projectionSpan (ts : List Token) (select : Nat) : Token.Span :=
  let start := min (behindTop ts (behindQuantifier ts (select + 1))) ts.length
  ⟨start, projectionEnd start 0 (ts.drop start)⟩

/-! ## One item -/

def calculationWords : List String :=
  ["CASE", "OVER", "RANK", "LEAD", "LAG", "PARTITION", "COALESCE", "ABS", "NTILE", "ROW_NUMBER",
   "SUM", "COUNT", "AVG", "MIN", "MAX", "QUALIFY", "ARRAY", "UNNEST"]

/-- Whether an expression computes anything: it holds a parenthesis, an operator, a star or one of
`calculationWords`. -/
def isCalculation (ts : List Token) : Bool :=
  ts.any fun t => t.kind == .leftParen || t.kind == .rightParen || t.kind == .operator ||
    t.kind == .star || t.isOneOf calculationWords

/-- For the items `*` and `t.*`, what stands before the star; nothing for any other item. -/
def starOf? (item : List Token) : Option (Option String) :=
  match item.reverse with
  | [star] => if star.kind == .star then some none else none
  | star :: dot :: _ =>
    if star.kind == .star && dot.kind == .dot then
      match QualifiedName.read? item 0 with
      | some n => if n.next + 2 = item.length then some (some n.text) else none
      | none => none
    else none
  | [] => none

/-- Whether a token can end an expression, so that a bare alias may follow it. -/
def endsExpression (t : Token) : Bool :=
  match t.kind with
  | .word _ | .quoted _ | .number _ | .literal _ | .rightParen => true
  | _ => false

/-- An item without its alias; the alias, if there is one, is the last token of the item. -/
structure Aliased where
  alias? : Option String
  body : List Token

/-- Splits `expression AS alias` or `expression alias`. -/
def splitAlias (scope : Scope) (item : List Token) : Aliased :=
  match item.reverse with
  | last :: previous :: _ => match last.identifier? with
    | none => ⟨none, item⟩
    | some name =>
      if previous.isWord "AS" then ⟨some name, item.dropLast.dropLast⟩
      else if endsExpression previous && (last.isQuoted || !scope.isIgnored name) then
        ⟨some name, item.dropLast⟩
      else ⟨none, item⟩
  | _ => ⟨none, item⟩

/-- The last name in an expression, which names its column if nothing better does. -/
def lastName? (body : List Token) : Option String :=
  body.reverse.findSome? freeName?

/-! ## Sources of an expression -/

/-- The tables in whose usage a column reference is noted: the one of its qualifier, or without a
qualifier every table in scope. -/
def usedTables (scope : Scope) (r : ColumnRef) : List String :=
  match r.qualifier with
  | some q => (scope.resolve? q).toList
  | none => scope.referenced

def observe (env : Environment) (scope : Scope) (r : ColumnRef) : List TableColumn :=
  (usedTables scope r).flatMap fun table => env.observed table r.column

/-- The table that a bare column comes from: in a calculation the first source, otherwise the only one. -/
def bareSource? (scope : Scope) (calculated : Bool) : Option String :=
  if calculated || scope.sources.length == 1 then scope.sources.head? else none

def sourceOf? (scope : Scope) (calculated : Bool) (r : ColumnRef) : Option TableColumn :=
  let table? := match r.qualifier with
    | some q => scope.resolve? q
    | none => bareSource? scope calculated
  table?.map fun table => ⟨table, r.column⟩

/-- The references of an expression that count: all of a calculation; otherwise only a reference that is
the whole expression. -/
def countingRefs (scope : Scope) (body : List Token) : List ColumnRef :=
  let refs := ColumnRef.collect scope body
  if isCalculation body then refs
  else match refs with
    | [r] => if r.start = 0 ∧ r.stop = body.length then [r] else []
    | _ => []

/-! ## The items together -/

/-- Columns, their lineage, the columns of other tables that were used, and the indices of the aliases in
the query body, which are no column references. -/
structure Projection where
  columns : List Column
  lineage : List LineageRecord
  observed : List TableColumn
  aliases : List Nat

namespace Projection

def empty : Projection := ⟨[], [], [], []⟩

/-- A column `*`, unless there is one. -/
def addStarColumn (p : Projection) : Projection :=
  if p.columns.any fun c => Text.sameFold c.name Column.starName then p
  else { p with columns := p.columns ++ [Column.mapped Column.starName] }

/-- All columns of a table. If they are not known, the column `*` stands for them. -/
def addTable (env : Environment) (p : Projection) (table : String) : Projection :=
  match (env.registry.lookup table).filter Definition.hasKnownSchema with
  | some d =>
    { p with
      columns := p.columns ++ d.columns.map fun c => Column.mapped c.name
      lineage := p.lineage ++ d.columns.map fun c => ⟨table, c.name, c.name, false⟩ }
  | none =>
    let p := p.addStarColumn
    { p with
      lineage := p.lineage ++ [⟨table, Column.starName, Column.starName, false⟩]
      observed := p.observed ++ env.observed table Column.starName }

def starTables (scope : Scope) (qualifier : Option String) : List String :=
  match qualifier with
  | some q => (scope.resolve? q).toList
  | none => scope.sources

def addStar (env : Environment) (scope : Scope) (p : Projection) (qualifier : Option String) :
    Projection :=
  let tables := starTables scope qualifier
  if tables.isEmpty then p.addStarColumn else tables.foldl (addTable env) p

/-- What an expression with or without an alias adds. One without any name adds no column, but what it
uses is noted all the same. -/
def addExpr (env : Environment) (scope : Scope) (p : Projection) (alias? : Option String)
    (body : List Token) : Projection :=
  let calculated := isCalculation body
  let refs := countingRefs scope body
  let sources := (refs.filterMap (sourceOf? scope calculated)).foldl appendNew []
  let ownName := if calculated then sources.head?.map TableColumn.column
    else refs.head?.map ColumnRef.column
  let p := { p with observed := p.observed ++ refs.flatMap (observe env scope) }
  match alias? <|> ownName <|> lastName? body with
  | none => p
  | some name =>
    { p with
      columns := p.columns ++ [if calculated then Column.calculated name else Column.mapped name]
      lineage := p.lineage ++ sources.map fun s => ⟨s.table, s.column, name, calculated⟩ }

/-- What one item adds, whose last token has the index `last` in the body. -/
def addItem (env : Environment) (scope : Scope) (p : Projection) (last : Nat) (item : List Token) :
    Projection :=
  match starOf? item with
  | some qualifier => addStar env scope p qualifier
  | none =>
    let a := splitAlias scope item
    let p := if a.alias?.isSome then { p with aliases := p.aliases ++ [last] } else p
    addExpr env scope p a.alias? a.body

def read (env : Environment) (scope : Scope) (ts : List Token) (select : Nat) : Projection :=
  let span := projectionSpan ts select
  let items := span.of ts
  (Token.topLevelSpans items).foldl
    (fun p s => addItem env scope p (span.start + s.stop - 1) (s.of items)) empty

end Projection
end SqlLineage.Select
