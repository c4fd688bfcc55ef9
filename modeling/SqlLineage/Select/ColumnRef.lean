import SqlLineage.Select.Scope

/-!
# Columns named in a query

A column is named by an identifier, maybe with qualifiers in front. An identifier names no column if it
is a function (a parenthesis follows), the head of `t.*` (a dot follows), an alias (behind `AS`), the
target of a cast (behind `::`) or, when unqualified and unquoted, a keyword or a table in scope.
-/

namespace SqlLineage.Select
set_option autoImplicit false

/-- A column named by the tokens from `start` up to `stop`. -/
structure ColumnRef where
  start : Nat
  stop : Nat
  qualifier : Option String
  column : String
deriving DecidableEq

namespace ColumnRef

/-- Whether the tokens in front of and behind a name say that it is no column. -/
def isExcluded (previous next : Option Token) : Bool :=
  next.any (fun t => t.kind == .leftParen || t.kind == .dot) ||
    previous.any fun t => t.isWord "AS" || t.lexeme == "::"

/-- The column that a name stands for, whose first token `first` has the index `start`. -/
def ofName? (scope : Scope) (start : Nat) (first : Token) (n : QualifiedName) : Option ColumnRef :=
  let column := n.parts.getLast?.getD ""
  let qualifiers := n.parts.dropLast
  if qualifiers.isEmpty then
    if first.isQuoted || !scope.isIgnored column then some ⟨start, n.next, none, column⟩ else none
  else some ⟨start, n.next, some (".".intercalate qualifiers), column⟩

/-- The columns named by tokens of which the first has the index `i`, and which stand behind the token
`previous`, if there is one. A name is read as a whole, and behind a dot no name begins. -/
def collectFrom (scope : Scope) (i : Nat) (previous : Option Token) : List Token → List ColumnRef
  | [] => []
  | t :: ts =>
    if previous.any (·.kind == .dot) then collectFrom scope (i + 1) (some t) ts
    else match QualifiedName.ofTokens? i (t :: ts) with
      | none => collectFrom scope (i + 1) (some t) ts
      | some n =>
        let further := n.next - (i + 1)
        let rest := ts.drop further
        (if isExcluded previous rest.head? then [] else (ofName? scope i t n).toList) ++
          collectFrom scope n.next (t :: ts.take further).getLast? rest
termination_by ts => ts.length
decreasing_by
  · simp
  · simp
  · simp only [List.length_drop, List.length_cons]
    omega

def collect (scope : Scope) (ts : List Token) : List ColumnRef :=
  collectFrom scope 0 none ts

end ColumnRef
end SqlLineage.Select
