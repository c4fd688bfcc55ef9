import SqlLineage.Keyword
import SqlLineage.Token.Bracket
import SqlLineage.Token.QualifiedName

/-!
# Tables named in a query

Tables are named behind `FROM`, `JOIN`, `APPLY` and `UNNEST`, anywhere in a query body, and in the comma
list behind the first `FROM` of the outermost `SELECT`.

* `TableRef.read?`: a table name with its alias at an index.
* `isNonTableFrom`: a `FROM` that introduces no table, as in `EXTRACT(YEAR FROM d)`.
* `keywordMentions`, `listMentions`: the tables of a body, in the order in which a scope takes them.
-/

namespace SqlLineage.Select
set_option autoImplicit false

/-! ## One table -/

/-- A table name, in parts, and the alias behind it. -/
structure TableRef where
  parts : List String
  alias? : Option String
deriving DecidableEq

def TableRef.text (t : TableRef) : String :=
  ".".intercalate t.parts

/-- Whether a token can be a name where keywords may stand too: quoted, or no ignored word. -/
def freeName? (t : Token) : Option String :=
  t.identifier?.filter fun name => t.isQuoted || !Keyword.isIgnored name

/-- The alias at an index, which may follow the word `AS`. -/
def aliasAt? (ts : List Token) (i : Nat) : Option String :=
  ts[Token.behindWord ts i "AS"]?.bind freeName?

/-- The table named at `start`. Subqueries, table functions and keywords name no table. -/
def TableRef.read? (ts : List Token) (start : Nat) : Option TableRef :=
  match QualifiedName.read? ts start with
  | none => none
  | some n =>
    if Token.opensAt ts n.next then none
    else if n.parts.length == 1 && (ts[start]?.bind freeName?).isNone then none
    else some ⟨n.parts, aliasAt? ts n.next⟩

/-! ## A FROM that introduces no table -/

/-- Functions whose arguments may hold a `FROM` of their own. -/
def fromFunctions : List String := ["EXTRACT", "SUBSTRING", "TRIM", "POSITION", "OVERLAY"]

/-- Walks leftwards over the tokens in front of a `FROM` to the innermost parenthesis that is still open,
and tells whether one of `fromFunctions` stands before it; `depth` counts the groups to be skipped. -/
def opensFromFunction (depth : Nat) : List Token → Bool
  | [] => false
  | t :: ts => match t.kind with
    | .rightParen => opensFromFunction (depth + 1) ts
    | .leftParen =>
      if depth = 0 then ts.head?.any (·.isOneOf fromFunctions) else opensFromFunction (depth - 1) ts
    | _ => opensFromFunction depth ts

/-- Whether the `FROM` at `i` belongs to `IS DISTINCT FROM` or to the arguments of a function. -/
def isNonTableFrom (ts : List Token) (i : Nat) : Bool :=
  (Token.before? ts i).any (·.isWord "DISTINCT") || opensFromFunction 0 (ts.take i).reverse

/-! ## All tables of a body -/

/-- A table named in a body; `topLevel` says whether the outermost `SELECT` reads it. -/
structure Mention where
  table : TableRef
  topLevel : Bool
deriving DecidableEq

def tableKeywords : List String := ["FROM", "JOIN", "APPLY", "UNNEST"]

/-- The table behind a token, if the token is a word that introduces one. What `UNNEST` opens is never a
source of the outermost `SELECT`. -/
def mentionAt? (ts : List Token) (depth : Int) (p : Token.Placed) : Option Mention :=
  if !p.token.isOneOf tableKeywords then none
  else if p.token.isWord "FROM" && isNonTableFrom ts p.index then none
  else (TableRef.read? ts (p.index + 1)).map fun t =>
    ⟨t, !p.token.isWord "UNNEST" && p.depth == depth⟩

/-- The tables behind the keywords of a body whose outermost `SELECT` has the given depth. -/
def keywordMentions (ts : List Token) (depth : Int) : List Mention :=
  (Token.placed ts).filterMap (mentionAt? ts depth)

def fromListEnds : List String :=
  ["WHERE", "GROUP", "ORDER", "HAVING", "JOIN", "LEFT", "RIGHT", "INNER", "OUTER", "FULL",
   "CROSS", "NATURAL", "APPLY", "UNNEST", "LIMIT", "OFFSET", "FETCH", "FOR", "QUALIFY", "WINDOW",
   "UNION", "EXCEPT", "INTERSECT", "ON", "LATERAL"]

/-- The index, from `start` on, of the first token below the given depth, or at it and among `ends`;
otherwise the number of tokens. -/
def clauseEnd (ts : List Token) (start : Nat) (depth : Int) (ends : List String) : Nat :=
  match ((Token.placed ts).drop start).find? fun p =>
      p.depth < depth || p.depth == depth && p.token.isOneOf ends with
  | some p => p.index
  | none => ts.length

/-- The index of the first `FROM` behind the `SELECT` at `select` that stands at its depth and introduces
a table. -/
def tableFrom? (ts : List Token) (select : Nat) : Option Nat :=
  let depth := Token.depthAt ts select
  (((Token.placed ts).drop (select + 1)).find? fun p =>
    p.depth == depth && p.token.isWord "FROM" && !isNonTableFrom ts p.index).map Token.Placed.index

/-- The groups between the commas of the first `FROM` behind the `SELECT` at `select`. -/
def fromGroups (ts : List Token) (select : Nat) : List (List Token) :=
  match tableFrom? ts select with
  | none => []
  | some i =>
    Token.topLevel (Token.Span.of ⟨i + 1, clauseEnd ts (i + 1) (Token.depthAt ts select) fromListEnds⟩
      ts)

/-- The tables of a comma list. A list of one table is left to `keywordMentions`. -/
def listMentions (ts : List Token) (select : Nat) : List Mention :=
  let groups := fromGroups ts select
  if groups.length < 2 then []
  else groups.filterMap fun group => (TableRef.read? group 0).map fun t => ⟨t, true⟩

end SqlLineage.Select
