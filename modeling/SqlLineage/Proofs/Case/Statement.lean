import SqlLineage.Proofs.Case.Token
import SqlLineage.Proofs.Query.Trace
import SqlLineage.Statement

/-! # Statements in capitals

* `Query.ofTokens_fold`: the query of tokens in capitals is the query of the tokens, in capitals.
* `Statement.ofTokens?_fold`: the same of statements. -/

namespace SqlLineage
open SqlLineage.Text SqlLineage.Token
set_option autoImplicit false

/-! ## Queries -/

def Cte.fold (c : Cte) : Cte :=
  { c with name := foldCase c.name, columns := c.columns.map foldCase }

def CteReading.fold (r : CteReading) : CteReading :=
  ⟨r.cte.fold, r.body.map Token.fold, r.rest.map Token.fold⟩

namespace Cte

theorem columnList?_fold (ts : List Token) (i : Nat) :
    columnList? (ts.map Token.fold) i = (columnList? ts i).map NameList.fold := by
  rw [columnList?, opensAt_fold, nameList?_fold, columnList?]
  split <;> rfl

theorem bodyStart?_fold (ts : List Token) (i : Nat) : bodyStart? (ts.map Token.fold) i = bodyStart? ts i := by
  simp only [bodyStart?, wordAt_fold, behindWord_fold, opensAt_fold]

theorem bodyAt_fold (ts : List Token) (start : Nat) :
    bodyAt (ts.map Token.fold) start =
      ((bodyAt ts start).1, (bodyAt ts start).2.1.map Token.fold, (bodyAt ts start).2.2.map Token.fold) := by
  rw [bodyAt, closing?_fold, bodyAt]
  cases closing? ts start with
  | none => rw [List.map_drop]; rfl
  | some close => simp only [spanOf_fold, List.map_drop]

theorem read?_fold (recursive : Bool) (ts : List Token) :
    read? recursive (ts.map Token.fold) = (read? recursive ts).map CteReading.fold := by
  rw [read?, QualifiedName.read?_fold, read?]
  cases QualifiedName.read? ts 0 with
  | none => rfl
  | some name =>
    simp only [Option.map_some, QualifiedName.next_fold, columnList?_fold]
    cases columnList? ts name.next with
    | none => rfl
    | some columns =>
      simp only [Option.map_some, NameList.fold, bodyStart?_fold]
      cases bodyStart? ts columns.next with
      | none => rfl
      | some start =>
        simp only [Option.map_some, bodyAt_fold, QualifiedName.text_fold]
        rfl

end Cte

namespace Query

def fold : Query → Query
  | .body ts => .body (ts.map Token.fold)
  | .cte head definition rest => .cte head.fold definition.fold rest.fold

theorem ofTokens_fold (ts : List Token) : ofTokens (ts.map Token.fold) = (ofTokens ts).fold := by
  refine ofTokens_induction (P := fun ts => ofTokens (ts.map Token.fold) = (ofTokens ts).fold)
    (L := fun b ts => ofList b (ts.map Token.fold) = (ofList b ts).fold)
    (R := fun b ts => ofRest b (ts.map Token.fold) = (ofRest b ts).fold)
    ?body ?recursive ?list ?noCte ?cte ?further ?main ts
  case body =>
    intro ts hwith
    rw [ofTokens_of_no_with hwith, ofTokens_of_no_with (by rw [wordAt_fold, hwith]), fold]
  case recursive =>
    intro w r ts hw hr ih
    rw [ofTokens_with_recursive hw hr, ← ih, List.map_cons, List.map_cons,
      ofTokens_with_recursive (by rw [isWord_fold, hw]) (by rw [isWord_fold, hr])]
  case list =>
    intro w ts hw hr ih
    rw [ofTokens_with hw hr, ← ih, List.map_cons,
      ofTokens_with (by rw [isWord_fold, hw]) (by rw [wordAt_fold, hr])]
  case noCte =>
    intro b ts hc
    rw [ofList_of_none hc, ofList_of_none (by rw [Cte.read?_fold, hc]; rfl), fold]
  case cte =>
    intro b ts c hc ihbody ihrest
    have hc' : Cte.read? b (ts.map Token.fold) = some c.fold := by
      rw [Cte.read?_fold, hc]
      rfl
    rw [ofList_of_some hc, ofList_of_some hc', fold, ← ihbody, ← ihrest]
    rfl
  case further =>
    intro b comma ts hcomma ih
    rw [ofRest_of_comma b hcomma, ← ih, List.map_cons,
      ofRest_of_comma b ((kind_fold_eq_iff comma .comma rfl).mpr hcomma)]
  case main =>
    intro b ts hmain
    have hmain' : ∀ t ∈ (ts.map Token.fold).head?, t.kind ≠ .comma := by
      rw [List.head?_map]
      rintro _ hhead hk
      obtain ⟨t, ht, rfl⟩ := Option.map_eq_some_iff.mp hhead
      exact hmain t ht ((kind_fold_eq_iff t .comma rfl).mp hk)
    rw [ofRest_of_no_comma b hmain, ofRest_of_no_comma b hmain', fold]

end Query

/-! ## Statements -/

def ColumnBlock.fold (b : ColumnBlock) : ColumnBlock :=
  ⟨b.definitions.map Token.fold, b.before.map Token.fold, b.after.map Token.fold, b.closed⟩

def TableBody.fold : TableBody → TableBody
  | .columns block => .columns block.fold
  | .query ts => .query (ts.map Token.fold)
  | .empty => .empty

namespace TableBody

theorem startsQuery_fold (ts : List Token) : startsQuery (ts.map Token.fold) = startsQuery ts := by
  have hopen : (fun t : Token => t.kind != .leftParen) ∘ Token.fold = fun t => t.kind != .leftParen := by
    funext t
    rw [Function.comp_apply, bne, kind_fold_beq t .leftParen rfl, bne]
  rw [startsQuery, List.find?_map, hopen, any_map_fold fun t => t.isOneOf_fold _, startsQuery]

theorem asQuery?_fold (ts : List Token) : asQuery? (ts.map Token.fold) = asQuery? ts := by
  refine index?_placed_fold ts fun p => ?_
  rw [← List.map_drop, startsQuery_fold]
  exact congrArg (fun b => p.depth == 0 && b && _) (p.token.isWord_fold "AS")

theorem queryAt_fold (ts : List Token) (i : Nat) : queryAt (ts.map Token.fold) i = (queryAt ts i).fold := by
  rw [queryAt, ← List.map_drop, unwrapped_fold]
  rfl

theorem closedBlock_fold (ts : List Token) (start close : Nat) :
    closedBlock (ts.map Token.fold) start close = (closedBlock ts start close).fold := by
  rw [closedBlock, spanOf_fold, ← List.map_take, ← List.map_drop]
  rfl

theorem openBlock_fold (ts : List Token) (start : Nat) :
    openBlock (ts.map Token.fold) start = (openBlock ts start).fold := by
  rw [openBlock, ← List.map_take, ← List.map_drop]
  rfl

theorem ofTokens_fold (ts : List Token) : ofTokens (ts.map Token.fold) = (ofTokens ts).fold := by
  rw [ofTokens, findIdx?_fold ts fun t => t.kind_fold_beq .leftParen rfl, asQuery?_fold, ofTokens]
  split
  · rfl
  · exact queryAt_fold ts _
  · rw [closing?_fold]
    split
    · split
      · exact queryAt_fold ts _
      · exact congrArg columns (closedBlock_fold ts _ _)
    · exact congrArg columns (closedBlock_fold ts _ _)
    · split
      · exact queryAt_fold ts _
      · exact congrArg columns (openBlock_fold ts _)
    · exact congrArg columns (openBlock_fold ts _)

end TableBody

def Statement.fold : Statement → Statement
  | .createTable name body => .createTable (foldCase name) body.fold
  | .createView name columns ts => .createView (foldCase name) (columns.map foldCase) (ts.map Token.fold)
  | .query ts => .query (ts.map Token.fold)

namespace Statement

theorem skipOneOf_fold (keywords : List String) (ts : List Token) :
    skipOneOf keywords (ts.map Token.fold) = (skipOneOf keywords ts).map Token.fold := by
  cases ts with
  | nil => rfl
  | cons t ts =>
    simp only [List.map_cons, skipOneOf, isOneOf_fold]
    split <;> rfl

theorem expect?_fold (keyword : String) (ts : List Token) :
    expect? keyword (ts.map Token.fold) = (expect? keyword ts).map (List.map Token.fold) := by
  cases ts with
  | nil => rfl
  | cons t ts =>
    simp only [List.map_cons, expect?, isWord_fold]
    split <;> rfl

theorem skipIfNotExists_fold (ts : List Token) :
    skipIfNotExists (ts.map Token.fold) = (skipIfNotExists ts).map Token.fold := by
  rw [skipIfNotExists, expect?_fold, skipIfNotExists]
  cases expect? "IF" ts with
  | none => rfl
  | some ts => simp only [Option.map_some, skipOneOf_fold]

theorem skipOrReplace_fold (ts : List Token) :
    skipOrReplace (ts.map Token.fold) = (skipOrReplace ts).map Token.fold := by
  rw [skipOrReplace, expect?_fold, skipOrReplace]
  cases expect? "OR" ts with
  | none => rfl
  | some ts => simp only [Option.map_some, skipOneOf_fold]

theorem name?_fold (ts : List Token) :
    name? (ts.map Token.fold) = (name? ts).map fun n => (foldCase n.1, n.2.map Token.fold) := by
  simp only [name?, skipIfNotExists_fold, QualifiedName.read?_fold]
  cases QualifiedName.read? (skipIfNotExists ts) 0 with
  | none => rfl
  | some n => simp only [Option.map_some, QualifiedName.text_fold, QualifiedName.next_fold, List.map_drop]

theorem behindAs?_fold (ts : List Token) :
    behindAs? (ts.map Token.fold) = (behindAs? ts).map (List.map Token.fold) := by
  have has : ∀ p : Placed, (p.fold.depth == 0 && p.fold.token.isWord "AS") = (p.depth == 0 && p.token.isWord "AS") :=
    fun p => congrArg (p.depth == 0 && ·) (p.token.isWord_fold "AS")
  rw [behindAs?, placed_fold, find?_placed_fold has, Option.map_map, behindAs?, Option.map_map]
  refine Option.map_congr fun p _ => ?_
  exact List.map_drop.symm

theorem viewOf?_fold (name : String) (ts : List Token) :
    viewOf? (foldCase name) (ts.map Token.fold) = (viewOf? name ts).map fold := by
  have hcolumns : (if opensAt (ts.map Token.fold) 0 then nameList? (ts.map Token.fold) 0 else some ⟨[], 0⟩) =
      (if opensAt ts 0 then nameList? ts 0 else some ⟨[], 0⟩).map NameList.fold := by
    rw [opensAt_fold, nameList?_fold]
    split <;> rfl
  rw [viewOf?, hcolumns, viewOf?]
  cases (if opensAt ts 0 then nameList? ts 0 else some ⟨[], 0⟩) with
  | none => rfl
  | some columns =>
    simp only [Option.map_some, NameList.fold, ← List.map_drop, behindAs?_fold]
    cases behindAs? (ts.drop columns.next) with
    | none => rfl
    | some query => exact congrArg (fun ts => some (createView (foldCase name) _ ts)) (unwrapped_fold query)

theorem ofCreate?_fold (ts : List Token) : ofCreate? (ts.map Token.fold) = (ofCreate? ts).map fold := by
  simp only [ofCreate?, skipOrReplace_fold, skipOneOf_fold, expect?_fold]
  cases expect? "TABLE" _ with
  | some ts =>
    simp only [Option.map_some, name?_fold]
    cases name? ts with
    | none => rfl
    | some n => exact congrArg (fun b => some (createTable (foldCase n.1) b)) (TableBody.ofTokens_fold n.2)
  | none =>
    simp only [Option.map_none]
    cases expect? "VIEW" _ with
    | some ts =>
      simp only [Option.map_some, name?_fold]
      cases name? ts with
      | none => rfl
      | some n => exact viewOf?_fold n.1 n.2
    | none => rfl

/-- The statement of tokens in capitals is the one of the tokens, in capitals. -/
theorem ofTokens?_fold (ts : List Token) : ofTokens? (ts.map Token.fold) = (ofTokens? ts).map fold := by
  cases ts with
  | nil => rfl
  | cons t ts =>
    simp only [List.map_cons, ofTokens?, isWord_fold, isOneOf_fold]
    split
    · exact ofCreate?_fold ts
    · split <;> rfl

end Statement
end SqlLineage
