import SqlLineage.Token.Bracket
import SqlLineage.Token.QualifiedName

/-!
# Queries

A query is a body, or a common table expression followed by the query that may use it: a `WITH` list is
read as nested bindings, innermost the main body, and the definition of each common table expression is a
query again.

* `Cte.read?`: the head of a common table expression, its body, and what follows it. Both are shorter
  than the tokens they were read from.
* `Query.ofTokens`: the query of a token list. Every token list is a query.
-/

namespace SqlLineage
open SqlLineage.Token
set_option autoImplicit false

/-! ## One common table expression -/

/-- The head of a common table expression. `closed` says whether its body ends in a parenthesis, and
`recursive` whether the body may use its own name. -/
structure Cte where
  name : String
  columns : List String
  recursive : Bool
  closed : Bool
deriving DecidableEq

structure CteReading where
  cte : Cte
  body : List Token
  rest : List Token

namespace Cte

/-- The column list of a common table expression, which may be missing; nothing if it is not closed. -/
def columnList? (ts : List Token) (i : Nat) : Option NameList :=
  if opensAt ts i then nameList? ts i else some ⟨[], i⟩

/-- The index of the parenthesis that opens the body, if `AS` stands at `i` and the body follows, maybe
behind `MATERIALIZED` or `NOT MATERIALIZED`. -/
def bodyStart? (ts : List Token) (i : Nat) : Option Nat :=
  if wordAt ts i "AS" then
    let j := behindWord ts (behindWord ts (i + 1) "NOT") "MATERIALIZED"
    if opensAt ts j then some j else none
  else none

/-- The body that opens at `start`, and what follows it. A body that is not closed takes all tokens. -/
def bodyAt (ts : List Token) (start : Nat) : Bool × List Token × List Token :=
  match closing? ts start with
  | some close => (true, Span.of ⟨start + 1, close⟩ ts, ts.drop (close + 1))
  | none => (false, ts.drop (start + 1), [])

/-- Reads `name (columns) AS (body)` at the head of a token list. -/
def read? (recursive : Bool) (ts : List Token) : Option CteReading :=
  match QualifiedName.read? ts 0 with
  | none => none
  | some name => match columnList? ts name.next with
    | none => none
    | some columns => match bodyStart? ts columns.next with
      | none => none
      | some start =>
        let b := bodyAt ts start
        some ⟨⟨name.text, columns.names, recursive, b.1⟩, b.2.1, b.2.2⟩

theorem bodyAt_shorter (ts : List Token) (start : Nat) (h : ts ≠ []) :
    (bodyAt ts start).2.1.length < ts.length ∧ (bodyAt ts start).2.2.length < ts.length := by
  have hpos : 0 < ts.length := List.length_pos_iff.mpr h
  unfold bodyAt
  split
  · simp only [Span.of, List.length_take, List.length_drop]
    omega
  · simp only [List.length_drop, List.length_nil]
    omega

theorem read?_shorter {recursive : Bool} {ts : List Token} {c : CteReading}
    (h : read? recursive ts = some c) : c.body.length < ts.length ∧ c.rest.length < ts.length := by
  unfold read? at h
  split at h
  · cases h
  · next name hname =>
    have hne : ts ≠ [] := by
      rintro rfl
      simp [QualifiedName.read?, QualifiedName.ofTokens?] at hname
    split at h
    · cases h
    · split at h
      · cases h
      · simp only [Option.some.injEq] at h
        subst h
        exact bodyAt_shorter ts _ hne

end Cte

/-! ## Whole queries -/

/-- A query: a body without a `WITH` list, or a common table expression and the query behind it. -/
inductive Query where
  | body (tokens : List Token)
  | cte (head : Cte) (definition : Query) (rest : Query)

namespace Query

mutual
def ofTokens (ts : List Token) : Query :=
  match ts with
  | [] => .body []
  | t :: rest =>
    if t.isWord "WITH" then
      match rest with
      | [] => .body []
      | r :: rest' => if r.isWord "RECURSIVE" then ofList true rest' else ofList false (r :: rest')
    else .body (t :: rest)
termination_by ts.length

/-- The query whose `WITH` list goes on with the tokens. -/
def ofList (recursive : Bool) (ts : List Token) : Query :=
  match _h : Cte.read? recursive ts with
  | none => .body ts
  | some c => .cte c.cte (ofTokens c.body) <| match _hr : c.rest with
    | [] => .body []
    | t :: rest => if t.kind = .comma then ofList recursive rest else .body (t :: rest)
termination_by ts.length
decreasing_by
  · exact (Cte.read?_shorter _h).1
  · have := (Cte.read?_shorter _h).2
    simp only [_hr, List.length_cons] at this
    omega
end

end Query
end SqlLineage
