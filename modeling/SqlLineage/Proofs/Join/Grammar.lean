import Mathlib.Tactic.MkIffOfInductiveProp
import SqlLineage.Query.Unwind

/-! # Joined queries and what they mean

A part of the query language that can be written down and understood without the readers: the items of a
`SELECT` over tables that are joined, each under an alias.

* `Join.Source`, `Join.Expr`, `Join.Item`, `JoinQuery`: the queries.
* `JoinQuery.signs`: how a query is written, token by token.
* `JoinQuery.Plain`: its names are no keywords, and its aliases can be told from all other names.
* `JoinQuery.definition`, `JoinQuery.used`: what the query defines, item by item, and the columns of other
  tables that it uses. -/

namespace SqlLineage
open SqlLineage.Text
set_option autoImplicit false

/-- The values of a list, each where it stands first. -/
def distinct {α : Type} [DecidableEq α] (xs : List α) : List α :=
  xs.foldl appendNew []

/-- What a token says, wherever it stands. -/
def Token.sign (t : Token) : Token.Kind × String := (t.kind, t.lexeme)

namespace Join

/-! ## Queries -/

/-- A table under an alias. -/
structure Source where
  table : String
  label : String
deriving DecidableEq

/-- An expression: `s.c`, `c`, or `f(s.c, ...)`. -/
inductive Expr where
  | column (source : Source) (column : String)
  | bare (column : String)
  | call (function : String) (arguments : List (Source × String))

/-- An item: an expression under an alias, or `s.*`. -/
inductive Item where
  | expr (e : Expr) (label : String)
  | star (source : Source)

end Join

open Join

/-- A query over joined tables, with one item and one table at least. -/
structure JoinQuery where
  first : Item
  further : List Item
  origin : Source
  joined : List Source

namespace JoinQuery

def items (j : JoinQuery) : List Item := j.first :: j.further

def sources (j : JoinQuery) : List Source := j.origin :: j.joined

end JoinQuery

/-! ## How they are written -/

namespace Join

/-- An unquoted word. -/
def word (w : String) : Token.Kind × String := (.word w, w)

def comma : Token.Kind × String := (.comma, ",")

/-- The pieces of a list with commas between them. -/
def listed : List (List (Token.Kind × String)) → List (Token.Kind × String)
  | [] => []
  | [x] => x
  | x :: y :: xs => x ++ comma :: listed (y :: xs)

def Source.signs (s : Source) : List (Token.Kind × String) := [word s.table, word "AS", word s.label]

def columnSigns (x : Source × String) : List (Token.Kind × String) :=
  [word x.1.label, (.dot, "."), word x.2]

def Expr.signs : Expr → List (Token.Kind × String)
  | .column s c => columnSigns (s, c)
  | .bare c => [word c]
  | .call f args => word f :: (.leftParen, "(") :: (listed (args.map columnSigns) ++ [(.rightParen, ")")])

def Item.signs : Item → List (Token.Kind × String)
  | .expr e a => e.signs ++ [word "AS", word a]
  | .star s => [word s.label, (.dot, "."), (.star, "*")]

end Join

def JoinQuery.signs (j : JoinQuery) : List (Token.Kind × String) :=
  word "SELECT" :: (listed (j.items.map Item.signs) ++
    word "FROM" :: (j.origin.signs ++ j.joined.flatMap fun s => word "JOIN" :: s.signs))

/-! ## Names that can be told apart -/

namespace Join

/-- A word that is no keyword. -/
def PlainWord (w : String) : Prop :=
  Keyword.isIgnored w = false ∧ foldCase w ≠ "ARRAY"

/-- Keywords that may be called. -/
def aggregates : List String := ["SUM", "COUNT", "AVG", "MIN", "MAX", "COALESCE"]

/-- A bare column must not be called like a table or an alias; every other column is one of a source. -/
def Expr.Plain (sources : List Source) : Expr → Prop
  | .column s c => s ∈ sources ∧ PlainWord c
  | .bare c => PlainWord c ∧ ∀ s ∈ sources, upper c ≠ upper s.label ∧ upper c ≠ upper s.table
  | .call f args => (PlainWord f ∨ foldCase f ∈ aggregates) ∧ ∀ x ∈ args, x.1 ∈ sources ∧ PlainWord x.2

def Item.Plain (sources : List Source) : Item → Prop
  | .expr e a => e.Plain sources ∧ PlainWord a
  | .star s => s ∈ sources

instance (w : String) : Decidable (PlainWord w) :=
  inferInstanceAs (Decidable (Keyword.isIgnored w = false ∧ foldCase w ≠ "ARRAY"))

instance (sources : List Source) : (e : Expr) → Decidable (e.Plain sources)
  | .column s c => inferInstanceAs (Decidable (s ∈ sources ∧ PlainWord c))
  | .bare c => inferInstanceAs
    (Decidable (PlainWord c ∧ ∀ s ∈ sources, upper c ≠ upper s.label ∧ upper c ≠ upper s.table))
  | .call f args => inferInstanceAs
    (Decidable ((PlainWord f ∨ foldCase f ∈ aggregates) ∧ ∀ x ∈ args, x.1 ∈ sources ∧ PlainWord x.2))

instance (sources : List Source) : (i : Item) → Decidable (i.Plain sources)
  | .expr e a => inferInstanceAs (Decidable (e.Plain sources ∧ PlainWord a))
  | .star s => inferInstanceAs (Decidable (s ∈ sources))

end Join

/-- A query whose words are plain. No two aliases agree in any case, and no alias is the name of a table;
one table may well be joined more than once. -/
@[mk_iff]
structure JoinQuery.Plain (j : JoinQuery) : Prop where
  words : ∀ s ∈ j.sources, PlainWord s.table ∧ PlainWord s.label
  nodup : (j.sources.map fun s => upper s.label).Nodup
  apart : ∀ s ∈ j.sources, ∀ t ∈ j.sources, upper s.label ≠ upper t.table
  items : ∀ i ∈ j.items, i.Plain j.sources

instance (j : JoinQuery) : Decidable j.Plain :=
  decidable_of_iff' _ (JoinQuery.plain_iff j)

/-! ## What they mean -/

namespace Join

/-- The table of a source, as its definition spells it. -/
def Source.spelled (r : Registry) (s : Source) : String := r.canonicalName s.table

/-- The columns of a table, if its schema is known. -/
def knownColumns? (r : Registry) (table : String) : Option (List Column) :=
  ((r.lookup table).filter Definition.hasKnownSchema).map Definition.columns

def named (r : Registry) (args : List (Source × String)) : List TableColumn :=
  args.map fun x => ⟨x.1.spelled r, x.2⟩

namespace Expr

def becomes (a : String) : Expr → Column
  | .column _ _ | .bare _ => .mapped a
  | .call _ _ => .calculated a

/-- Where that column comes from. A bare column comes from the only table, if there is only one; the
arguments of a call count once each. -/
def records (r : Registry) (tables : List String) (a : String) : Expr → List LineageRecord
  | .column s c => [⟨s.spelled r, c, a, false⟩]
  | .bare c => match tables with
    | [t] => [⟨t, c, a, false⟩]
    | _ => []
  | .call _ args => (distinct (named r args)).map fun u => ⟨u.table, u.column, a, true⟩

/-- The columns of other tables that an expression uses; a bare one is noted for all of `tables`. -/
def used (r : Registry) (tables : List String) : Expr → List TableColumn
  | .column s c => [⟨s.spelled r, c⟩]
  | .bare c => tables.map fun t => ⟨t, c⟩
  | .call _ args => named r args

end Expr

def Item.used (r : Registry) (tables : List String) : Item → List TableColumn
  | .expr e _ => e.used r tables
  | .star _ => []

structure Output where
  columns : List Column
  lineage : List LineageRecord
  used : List TableColumn

/-- The output with one more item. A star stands for the columns of its table; if they are not known, it
becomes a column itself, but only once. -/
def Output.add (r : Registry) (tables : List String) (o : Output) : Item → Output
  | .expr e a =>
    ⟨o.columns ++ [e.becomes a], o.lineage ++ e.records r tables a, o.used ++ e.used r tables⟩
  | .star s => match knownColumns? r (s.spelled r) with
    | some columns =>
      ⟨o.columns ++ columns.map fun c => .mapped c.name,
        o.lineage ++ columns.map fun c => ⟨s.spelled r, c.name, c.name, false⟩, o.used⟩
    | none =>
      ⟨if o.columns.any fun c => sameFold c.name Column.starName then o.columns
          else o.columns ++ [.mapped Column.starName],
        o.lineage ++ [⟨s.spelled r, Column.starName, Column.starName, false⟩],
        o.used ++ [⟨s.spelled r, Column.starName⟩]⟩

end Join

namespace JoinQuery

def tables (r : Registry) (j : JoinQuery) : List String :=
  distinct (j.sources.map (Source.spelled r))

def output (r : Registry) (j : JoinQuery) : Output :=
  j.items.foldl (Output.add r (j.tables r)) ⟨[], [], []⟩

def definition (r : Registry) (j : JoinQuery) (name : String) (kind : Definition.Kind) : Definition :=
  ⟨name, kind, (j.output r).columns, (j.tables r).map Reference.uses, (j.output r).lineage⟩

/-- All columns that the query uses: once for the items, and once more where it is searched as a whole,
which passes stars by. -/
def used (r : Registry) (j : JoinQuery) : List TableColumn :=
  (j.output r).used ++ j.items.flatMap (Item.used r (j.tables r))

end JoinQuery
end SqlLineage
