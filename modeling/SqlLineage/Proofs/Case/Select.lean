import SqlLineage.Proofs.Case.Scope
import SqlLineage.Proofs.Script.Anchored

/-! # Query bodies in capitals

* `Select.Even`: no two tables of a body, and no two sources of one item, differ in case only.
* `Select.Projection.read_fold`: what such a body puts out, in capitals.
* `Select.read_fold`: all that it says. -/

namespace SqlLineage.Select
open SqlLineage.Text SqlLineage.Token
set_option autoImplicit false

/-! ## Grouping keys -/

section Grouping
variable (ts : List Token)

theorem groupBy?_fold (select : Nat) : groupBy? (ts.map Token.fold) select = groupBy? ts select := by
  have hgroup : ∀ p : Placed, (p.fold.depth == depthAt ts select && p.fold.token.isWord "GROUP" &&
      wordAt (ts.map Token.fold) (p.fold.index + 1) "BY") =
      (p.depth == depthAt ts select && p.token.isWord "GROUP" && wordAt ts (p.index + 1) "BY") := by
    intro p
    simp only [Placed.fold, isWord_fold, wordAt_fold]
  simp only [groupBy?, depthAt_fold, placed_fold, ← List.map_drop]
  rw [find?_placed_fold hgroup, Option.map_map]
  rfl

theorem groupItems_fold (select : Nat) :
    groupItems (ts.map Token.fold) select = (groupItems ts select).map (List.map Token.fold) := by
  rw [groupItems, groupBy?_fold, groupItems]
  cases groupBy? ts select with
  | none => rfl
  | some i => simp only [clauseEnd_fold, depthAt_fold, spanOf_fold, topLevel_fold]

def GroupKey.fold : GroupKey → GroupKey
  | .position text => .position (foldCase text)
  | .called name => .called (foldCase name)
  | .unnamed => .unnamed

theorem findSome?_fold {p : Token → Option String} (hp : ∀ t, p t.fold = (p t).map foldCase) :
    (ts.map Token.fold).reverse.findSome? p = (ts.reverse.findSome? p).map foldCase := by
  rw [← List.map_reverse, List.findSome?_map, List.map_findSome?]
  congr 1
  exact funext hp

theorem GroupKey.ofItem_of_two (t t' : Token) (rest : List Token) :
    ofItem (t :: t' :: rest) = match (t :: t' :: rest).reverse.findSome? Token.identifier? with
      | some name => .called name
      | none => .unnamed := by
  unfold ofItem
  split
  · next h => cases (List.cons.inj h).2
  · rfl

theorem GroupKey.ofItem_fold (item : List Token) : ofItem (item.map Token.fold) = (ofItem item).fold := by
  cases item with
  | nil => rfl
  | cons t rest =>
    cases rest with
    | nil =>
      obtain ⟨kind, lexeme, line, col⟩ := t
      cases kind <;> rfl
    | cons t' rest =>
      have hname := findSome?_fold (t :: t' :: rest) fun t => t.identifier?_fold
      rw [List.map_cons, List.map_cons] at hname ⊢
      rw [ofItem_of_two, hname, ofItem_of_two]
      cases (t :: t' :: rest).reverse.findSome? Token.identifier? <;> rfl

theorem ordinal?_foldCase (text : String) : ordinal? (foldCase text) = ordinal? text := by
  have hdigit : Char.isDigit ∘ Char.toUpper = Char.isDigit := funext isDigit_toUpper
  rw [ordinal?, toList_foldCase, List.all_map, hdigit, isEmpty_foldCase, ordinal?]
  split
  · next h =>
    rw [Bool.and_eq_true, List.all_eq_true] at h
    have hsame : ∀ c ∈ text.toList, c.toUpper = id c := fun c hc => toUpper_of_isDigit (h.1 c hc)
    rw [List.map_congr_left hsame, List.map_id]
  · rfl

theorem markKey_fold (columns : List Column) (key : GroupKey) : markKey columns key.fold = markKey columns key := by
  cases key with
  | position text => rw [GroupKey.fold, markKey, ordinal?_foldCase, markKey]
  | called name => simp only [GroupKey.fold, markKey, sameFold_foldCase_right]
  | unnamed => rfl

theorem marksOnly_asKey : Column.MarksOnly asKey := fun _ _ _ => rfl

theorem map_fold_markKey (columns : List Column) (key : GroupKey) :
    (markKey columns key).map Column.fold = markKey (columns.map Column.fold) key := by
  cases key with
  | position text =>
    simp only [markKey]
    split
    · apply List.ext_getElem?
      intro i
      simp only [List.getElem?_map, List.getElem?_modify]
      cases columns[i]? with
      | none => rfl
      | some c =>
        simp only [Option.map_some, Option.map_eq_map]
        split
        · rw [marksOnly_asKey.fold_eq]
        · rfl
    · rfl
  | called name =>
    simp only [markKey, List.map_map]
    refine List.map_congr_left fun c _ => ?_
    rw [Function.comp_apply, Function.comp_apply, Column.sameFold_name_fold]
    split
    · exact marksOnly_asKey.fold_eq c
    · rfl
  | unnamed => rfl

theorem markKeys_fold (select : Nat) (columns : List Column) :
    markKeys (ts.map Token.fold) select columns = markKeys ts select columns := by
  have hkeys : (groupItems (ts.map Token.fold) select).map GroupKey.ofItem =
      ((groupItems ts select).map GroupKey.ofItem).map GroupKey.fold := by
    rw [groupItems_fold, List.map_map, List.map_map]
    exact List.map_congr_left fun item _ => GroupKey.ofItem_fold item
  rw [markKeys, hkeys, List.foldl_map, markKeys]
  congr 1
  funext columns key
  exact markKey_fold columns key

theorem map_fold_markKeys (select : Nat) (columns : List Column) :
    (markKeys ts select columns).map Column.fold = markKeys ts select (columns.map Column.fold) := by
  unfold markKeys
  induction (groupItems ts select).map GroupKey.ofItem generalizing columns with
  | nil => rfl
  | cons key keys ih => rw [List.foldl_cons, ih, map_fold_markKey, List.foldl_cons]

end Grouping

/-! ## The items of a body -/

section Items
variable (ts : List Token)

theorem behindGroup_fold (i : Nat) : behindGroup (ts.map Token.fold) i = behindGroup ts i := by
  rw [behindGroup, closing?_fold, List.length_map, behindGroup]

theorem behindQuantifier_fold (i : Nat) : behindQuantifier (ts.map Token.fold) i = behindQuantifier ts i := by
  simp only [behindQuantifier, wordAt_fold, opensAt_fold, behindGroup_fold]

theorem behindCount_fold (i : Nat) : behindCount (ts.map Token.fold) i = behindCount ts i := by
  rw [behindCount, List.getElem?_map, behindGroup_fold, behindCount, Option.map_map]
  cases ts[i]? with
  | none => rfl
  | some t =>
    rw [Option.map_some, Option.map_some, Function.comp_apply, kind_fold]
    cases t.kind <;> rfl

theorem behindTop_fold (i : Nat) : behindTop (ts.map Token.fold) i = behindTop ts i := by
  simp only [behindTop, wordAt_fold, behindCount_fold]

theorem projectionEnd_fold (i : Nat) (d : Int) : projectionEnd i d (ts.map Token.fold) = projectionEnd i d ts := by
  induction ts generalizing i d with
  | nil => rfl
  | cons t ts ih =>
    rw [List.map_cons, projectionEnd, projectionEnd, kind_fold, isOneOf_fold]
    cases t.kind <;> simp only [Kind.fold, ih]

theorem projectionSpan_fold (select : Nat) : projectionSpan (ts.map Token.fold) select = projectionSpan ts select := by
  simp only [projectionSpan, behindQuantifier_fold, behindTop_fold, List.length_map, ← List.map_drop,
    projectionEnd_fold]

theorem isCalculation_fold : isCalculation (ts.map Token.fold) = isCalculation ts := by
  rw [isCalculation, List.any_map, isCalculation]
  congr 1
  funext t
  rw [Function.comp_apply, kind_fold_beq t .leftParen rfl, kind_fold_beq t .rightParen rfl,
    kind_fold_beq t .operator rfl, kind_fold_beq t .star rfl, isOneOf_fold]

theorem starOf?_fold : starOf? (ts.map Token.fold) = (starOf? ts).map (Option.map foldCase) := by
  rw [starOf?, QualifiedName.read?_fold, ← List.map_reverse, List.length_map, starOf?]
  cases ts.reverse with
  | nil => rfl
  | cons star rest =>
    cases rest with
    | nil =>
      simp only [List.map_cons, List.map_nil, kind_fold_beq star .star rfl]
      split <;> rfl
    | cons dot rest =>
      simp only [List.map_cons, kind_fold_beq star .star rfl, kind_fold_beq dot .dot rfl]
      split
      · cases QualifiedName.read? ts 0 with
        | none => rfl
        | some n =>
          simp only [Option.map_some, QualifiedName.next_fold, QualifiedName.text_fold]
          split <;> rfl
      · rfl

theorem endsExpression_fold (t : Token) : endsExpression t.fold = endsExpression t := by
  rw [endsExpression, kind_fold, endsExpression]
  cases t.kind <;> rfl

def Aliased.fold (a : Aliased) : Aliased :=
  ⟨a.alias?.map foldCase, a.body.map Token.fold⟩

theorem splitAlias_fold (scope : Scope) : splitAlias scope.fold (ts.map Token.fold) = (splitAlias scope ts).fold := by
  rw [splitAlias, ← List.map_reverse, splitAlias]
  cases ts.reverse with
  | nil => rfl
  | cons last rest =>
    cases rest with
    | nil => rfl
    | cons previous rest =>
      simp only [List.map_cons, identifier?_fold]
      cases last.identifier? with
      | none => rfl
      | some name =>
        simp only [Option.map_some, isWord_fold, endsExpression_fold, isQuoted_fold, Scope.isIgnored_fold,
          ← List.map_dropLast]
        split
        · rfl
        · split <;> rfl

theorem lastName?_fold : lastName? (ts.map Token.fold) = (lastName? ts).map foldCase :=
  findSome?_fold ts freeName?_fold

end Items

/-! ## Sources -/

section Sources
variable (env : Environment) (scope : Scope) (r : ColumnRef)

theorem usedTables_fold : usedTables scope.fold r.fold = (usedTables scope r).map foldCase := by
  rw [usedTables, ColumnRef.fold, usedTables]
  cases r.qualifier with
  | none => rfl
  | some q =>
    simp only [Option.map_some, Scope.resolve?_fold]
    cases scope.resolve? q <;> rfl

theorem observe_fold : observe env.fold scope.fold r.fold = (observe env scope r).map TableColumn.fold := by
  rw [observe, usedTables_fold, List.flatMap_map, observe, List.map_flatMap]
  exact List.flatMap_congr fun table _ => env.observed_fold table r.column

theorem bareSource?_fold (calculated : Bool) :
    bareSource? scope.fold calculated = (bareSource? scope calculated).map foldCase := by
  rw [bareSource?, Scope.sources_fold, List.length_map, List.head?_map, bareSource?]
  split <;> rfl

theorem sourceOf?_fold (calculated : Bool) :
    sourceOf? scope.fold calculated r.fold = (sourceOf? scope calculated r).map TableColumn.fold := by
  simp only [sourceOf?, ColumnRef.fold]
  cases r.qualifier with
  | none =>
    simp only [Option.map_none, bareSource?_fold, Option.map_map]
    rfl
  | some q =>
    simp only [Option.map_some, Scope.resolve?_fold, Option.map_map]
    rfl

theorem countingRefs_fold (body : List Token) :
    countingRefs scope.fold (body.map Token.fold) = (countingRefs scope body).map ColumnRef.fold := by
  rw [countingRefs, isCalculation_fold, ColumnRef.collect_fold, countingRefs]
  split
  · rfl
  · cases ColumnRef.collect scope body with
    | nil => rfl
    | cons r rest =>
      cases rest with
      | nil =>
        rw [List.map_cons, List.map_nil, List.length_map]
        show (if r.start = 0 ∧ r.stop = body.length then [r.fold] else []) =
          (if r.start = 0 ∧ r.stop = body.length then [r] else []).map ColumnRef.fold
        split <;> rfl
      | cons r' rest => rfl

/-- Where the column of an expression comes from, each source as often as it is named. -/
def sourcesOf (body : List Token) : List TableColumn :=
  (countingRefs scope body).filterMap (sourceOf? scope (isCalculation body))

theorem sourcesOf_fold (body : List Token) :
    sourcesOf scope.fold (body.map Token.fold) = (sourcesOf scope body).map TableColumn.fold := by
  rw [sourcesOf, countingRefs_fold, isCalculation_fold, List.filterMap_map, sourcesOf, List.map_filterMap]
  exact List.filterMap_congr fun r _ => sourceOf?_fold scope r _

end Sources

/-! ## Projections -/

/-- No two of the sources differ in case only. -/
def EvenSources (os : List TableColumn) : Prop :=
  ∀ o ∈ os, ∀ o' ∈ os, o.fold = o'.fold → o = o'

instance (os : List TableColumn) : Decidable (EvenSources os) :=
  inferInstanceAs (Decidable (∀ o ∈ os, ∀ o' ∈ os, o.fold = o'.fold → o = o'))

namespace Projection

def fold (p : Projection) : Projection :=
  ⟨p.columns.map Column.fold, p.lineage.map LineageRecord.fold, p.observed.map TableColumn.fold, p.aliases⟩

section Steps
variable {env : Environment} {scope : Scope} {p p' : Projection}

theorem fold_addStarColumn (h : p'.fold = p.fold) : p'.addStarColumn.fold = p.addStarColumn.fold := by
  obtain ⟨hc, hl, ho, ha⟩ := Projection.mk.inj h
  have hstar : ∀ q : Projection, (q.columns.any fun c => sameFold c.name Column.starName) =
      (q.columns.map Column.fold).any fun c => sameFold c.name Column.starName := by
    intro q
    simp only [List.any_map, Function.comp_def, Column.sameFold_name_fold]
  rw [addStarColumn, addStarColumn, hstar p', hstar p, hc]
  split
  · exact h
  · simp only [fold, List.map_append, hc, hl, ho, ha]

theorem fold_addTable (h : p'.fold = p.fold) (table : String) :
    (addTable env.fold p' (foldCase table)).fold = (addTable env p table).fold := by
  obtain ⟨hc, hl, ho, ha⟩ := Projection.mk.inj h
  have hlookup : (env.fold.registry.lookup (foldCase table)).filter Definition.hasKnownSchema =
      ((env.registry.lookup table).filter Definition.hasKnownSchema).map Definition.fold := by
    rw [Environment.fold, Registry.lookup_fold]
    cases env.registry.lookup table with
    | none => rfl
    | some d =>
      rw [Option.map_some, Option.filter_some, Option.filter_some, Definition.hasKnownSchema_fold]
      split <;> rfl
  rw [addTable, hlookup, addTable]
  cases (env.registry.lookup table).filter Definition.hasKnownSchema with
  | some d =>
    have hcolumns : (d.fold.columns.map fun c => Column.mapped c.name).map Column.fold =
        (d.columns.map fun c => Column.mapped c.name).map Column.fold := by
      simp only [Definition.fold, List.map_map]
      exact List.map_congr_left fun c _ => Column.fold_mapped c.foldCase_name_fold
    have hlineage : (d.fold.columns.map fun c => (⟨foldCase table, c.name, c.name, false⟩ : LineageRecord)).map
          LineageRecord.fold =
        (d.columns.map fun c => (⟨table, c.name, c.name, false⟩ : LineageRecord)).map LineageRecord.fold := by
      simp only [Definition.fold, List.map_map]
      refine List.map_congr_left fun c _ => ?_
      simp only [Function.comp_apply, LineageRecord.fold, foldCase_foldCase, Column.foldCase_name_fold]
    simp only [Option.map_some, fold, List.map_append, hc, hl, ho, ha, hcolumns, hlineage]
  | none =>
    obtain ⟨hc, hl, ho, ha⟩ := Projection.mk.inj (fold_addStarColumn h)
    have hobserved : env.fold.observed (foldCase table) Column.starName =
        (env.observed table Column.starName).map TableColumn.fold :=
      env.observed_fold table Column.starName
    have hrecord : (⟨foldCase table, Column.starName, Column.starName, false⟩ : LineageRecord).fold =
        (⟨table, Column.starName, Column.starName, false⟩ : LineageRecord).fold := by
      simp only [LineageRecord.fold, foldCase_foldCase]
    simp only [Option.map_none, fold, List.map_append, hc, hl, ho, ha, hobserved, List.map_map, List.map_singleton,
      hrecord, Function.comp_def, TableColumn.fold_fold]

theorem fold_addStar (h : p'.fold = p.fold) (qualifier : Option String) :
    (addStar env.fold scope.fold p' (qualifier.map foldCase)).fold = (addStar env scope p qualifier).fold := by
  have htables : starTables scope.fold (qualifier.map foldCase) = (starTables scope qualifier).map foldCase := by
    cases qualifier with
    | none => exact scope.sources_fold
    | some q =>
      simp only [starTables, Option.map_some, Scope.resolve?_fold]
      cases scope.resolve? q <;> rfl
  have hall : ∀ (tables : List String) (p p' : Projection), p'.fold = p.fold →
      ((tables.map foldCase).foldl (addTable env.fold) p').fold = (tables.foldl (addTable env) p).fold := by
    intro tables
    induction tables with
    | nil => exact fun p p' h => h
    | cons t ts ih => exact fun p p' h => ih _ _ (fold_addTable h t)
  rw [addStar, htables, List.isEmpty_map, addStar]
  split
  · exact fold_addStarColumn h
  · exact hall _ p p' h

theorem fold_addExpr (h : p'.fold = p.fold) (alias? : Option String) {body : List Token}
    (heven : EvenSources (sourcesOf scope body)) :
    (addExpr env.fold scope.fold p' (alias?.map foldCase) (body.map Token.fold)).fold =
      (addExpr env scope p alias? body).fold := by
  obtain ⟨hc, hl, ho, ha⟩ := Projection.mk.inj h
  have hsources : (sourcesOf scope.fold (body.map Token.fold)).foldl appendNew [] =
      ((sourcesOf scope body).foldl appendNew []).map TableColumn.fold := by
    rw [sourcesOf_fold]
    have heven : ∀ o ∈ [] ++ sourcesOf scope body, ∀ o' ∈ [] ++ sourcesOf scope body, o.fold = o'.fold → o = o' := heven
    exact foldl_appendNew_map TableColumn.fold heven
  rw [sourcesOf, sourcesOf, isCalculation_fold, countingRefs_fold] at hsources
  have hobserved : ((countingRefs scope body).map ColumnRef.fold).flatMap (observe env.fold scope.fold) =
      ((countingRefs scope body).flatMap (observe env scope)).map TableColumn.fold := by
    rw [List.flatMap_map, List.map_flatMap]
    exact List.flatMap_congr fun r _ => observe_fold env scope r
  unfold addExpr
  simp only [isCalculation_fold, countingRefs_fold, hsources, hobserved, lastName?_fold]
  generalize isCalculation body = calculated
  generalize ((countingRefs scope body).filterMap (sourceOf? scope calculated)).foldl appendNew [] = sources
  generalize countingRefs scope body = refs
  have hname : (alias?.map foldCase <|> (if calculated then (sources.map TableColumn.fold).head?.map TableColumn.column
        else (refs.map ColumnRef.fold).head?.map ColumnRef.column) <|> (lastName? body).map foldCase) =
      (alias? <|> (if calculated then sources.head?.map TableColumn.column else refs.head?.map ColumnRef.column) <|>
        lastName? body).map foldCase := by
    cases alias? with
    | some name => rfl
    | none => cases calculated <;> cases sources <;> cases refs <;> rfl
  rw [hname]
  generalize (alias? <|> _ <|> lastName? body) = name?
  cases name? with
  | none => simp only [Option.map_none, fold, List.map_append, hc, hl, ho, ha, List.map_map, Function.comp_def,
      TableColumn.fold_fold]
  | some name =>
    have hcolumn : (if calculated then Column.calculated (foldCase name) else Column.mapped (foldCase name)).fold =
        (if calculated then Column.calculated name else Column.mapped name).fold := by
      cases calculated
      · exact Column.fold_mapped (foldCase_foldCase name)
      · exact Column.fold_calculated (foldCase_foldCase name)
    have hrecords : ((sources.map TableColumn.fold).map fun s =>
          (⟨s.table, s.column, foldCase name, calculated⟩ : LineageRecord)).map LineageRecord.fold =
        (sources.map fun s => (⟨s.table, s.column, name, calculated⟩ : LineageRecord)).map LineageRecord.fold := by
      simp only [List.map_map, Function.comp_def, LineageRecord.fold, TableColumn.fold, foldCase_foldCase]
    simp only [Option.map_some, fold, List.map_append, hc, hl, ho, ha, List.map_singleton, hcolumn, hrecords]
    simp only [List.map_map, Function.comp_def, TableColumn.fold_fold]

theorem fold_addItem (h : p'.fold = p.fold) (last : Nat) {item : List Token}
    (heven : EvenSources (sourcesOf scope (splitAlias scope item).body)) :
    (addItem env.fold scope.fold p' last (item.map Token.fold)).fold = (addItem env scope p last item).fold := by
  rw [addItem, starOf?_fold, splitAlias_fold, addItem]
  cases starOf? item with
  | some qualifier => exact fold_addStar h qualifier
  | none =>
    refine fold_addExpr ?_ _ heven
    obtain ⟨hc, hl, ho, ha⟩ := Projection.mk.inj h
    simp only [Aliased.fold, Option.isSome_map]
    split
    · simp only [fold, hc, hl, ho, ha]
    · exact h

end Steps

/-- The items of the outermost `SELECT` of a body. -/
def items (ts : List Token) : List (List Token) :=
  match select? ts with
  | some select => topLevel ((projectionSpan ts select).of ts)
  | none => []

/-! ### Columns of queries -/

/-- No column stands for a schema that is not known. -/
def Plain (p : Projection) : Prop :=
  ∀ c ∈ p.columns, c.isPlaceholder = false

theorem plain_read (env : Environment) (scope : Scope) (ts : List Token) (select : Nat) :
    (read env scope ts select).Plain :=
  forall_columns_read Column.isPlaceholder_mapped Column.isPlaceholder_calculated ts select

/-! ### In capitals -/

/-- A projection in capitals, if no two sources of one item differ in case only. -/
theorem read_fold {env : Environment} {scope : Scope} {ts : List Token} {select : Nat}
    (hselect : select? ts = some select)
    (h : ∀ item ∈ items ts, EvenSources (sourcesOf scope (splitAlias scope item).body)) :
    (read env.fold scope.fold (ts.map Token.fold) select).fold = (read env scope ts select).fold := by
  have hall : ∀ (spans : List Span) (items : List Token) (start : Nat) (p p' : Projection), p'.fold = p.fold →
      (∀ s ∈ spans, EvenSources (sourcesOf scope (splitAlias scope (s.of items)).body)) →
      (spans.foldl (fun p s => addItem env.fold scope.fold p (start + s.stop - 1) (s.of (items.map Token.fold)))
          p').fold =
        (spans.foldl (fun p s => addItem env scope p (start + s.stop - 1) (s.of items)) p).fold := by
    intro spans items start
    induction spans with
    | nil => exact fun p p' h _ => h
    | cons s spans ih =>
      intro p p' hp heven
      obtain ⟨hs, hspans⟩ := List.forall_mem_cons.mp heven
      rw [List.foldl_cons, List.foldl_cons, spanOf_fold]
      exact ih _ _ (fold_addItem hp _ hs) hspans
  unfold read
  dsimp only
  rw [projectionSpan_fold, spanOf_fold, topLevelSpans_fold]
  rw [items, hselect] at h
  exact hall _ _ _ empty empty rfl fun s hs => h _ (List.mem_map_of_mem hs)

end Projection

/-! ## Whole bodies -/

/-- No two tables of a body, and no two sources of one of its items, differ in case only. -/
structure Even (env : Environment) (ts : List Token) : Prop where
  tables : Uniform ((mentions ts).map fun m => env.resolve m.table.text)
  sources : ∀ item ∈ Projection.items ts,
    EvenSources (sourcesOf (scopeOf env ts) (splitAlias (scopeOf env ts) item).body)

theorem even_iff {env : Environment} {ts : List Token} : Even env ts ↔
    Uniform ((mentions ts).map fun m => env.resolve m.table.text) ∧ ∀ item ∈ Projection.items ts,
      EvenSources (sourcesOf (scopeOf env ts) (splitAlias (scopeOf env ts) item).body) := by
  constructor
  · intro h
    exact ⟨h.tables, h.sources⟩
  · intro h
    exact ⟨h.1, h.2⟩

instance (env : Environment) (ts : List Token) : Decidable (Even env ts) :=
  decidable_of_iff _ even_iff.symm

theorem bodyUsage_fold (env : Environment) (scope : Scope) (ts : List Token) (aliases : List Nat) :
    bodyUsage env.fold scope.fold (ts.map Token.fold) aliases =
      (bodyUsage env scope ts aliases).map TableColumn.fold := by
  rw [bodyUsage, ColumnRef.collect_fold, List.filter_map, List.flatMap_map, bodyUsage, List.map_flatMap]
  exact List.flatMap_congr fun r _ => observe_fold env scope r

theorem plain_columns_read (env : Environment) (ts : List Token) (name : String) (kind : Definition.Kind) :
    (∀ c ∈ (read env ts name kind).definition.columns, c.isPlaceholder = false) ∨
      (read env ts name kind).definition.lineage = [] := by
  unfold read
  split
  · next select _ =>
    refine .inl fun c hc => ?_
    have hmem := List.mem_map_of_mem (f := Column.isPlaceholder) hc
    rw [map_markKeys marksOnly_asKey.isPlaceholder_eq] at hmem
    obtain ⟨c', hc', heq⟩ := List.mem_map.mp hmem
    rw [← heq]
    exact Projection.plain_read env (scopeOf env ts) ts select c' hc'
  · exact .inr rfl

/-- What a body says, in capitals. -/
theorem read_fold {env : Environment} {ts : List Token} (h : Even env ts) (name : String) (kind : Definition.Kind) :
    (read env.fold (ts.map Token.fold) (foldCase name) kind).definition.fold = (read env ts name kind).definition.fold ∧
      (read env.fold (ts.map Token.fold) (foldCase name) kind).observed.map TableColumn.fold =
        (read env ts name kind).observed.map TableColumn.fold := by
  have hreferences : ((scopeOf env ts).fold.referenced.map Reference.uses).map Reference.fold =
      ((scopeOf env ts).referenced.map Reference.uses).map Reference.fold := by
    simp only [Scope.fold, List.map_map, Function.comp_def, Reference.uses, Reference.fold, foldCase_foldCase]
  unfold read
  rw [select?_fold, scopeOf_fold h.tables]
  cases hselect : select? ts with
  | none =>
    refine ⟨?_, rfl⟩
    simp only [Definition.fold, foldCase_foldCase, hreferences]
  | some select =>
    have hread : (Projection.read env.fold (scopeOf env ts).fold (ts.map Token.fold) select).fold =
        (Projection.read env (scopeOf env ts) ts select).fold := Projection.read_fold hselect h.sources
    obtain ⟨hc, hl, ho, ha⟩ := Projection.mk.inj hread
    simp only [Definition.fold, foldCase_foldCase, hreferences, markKeys_fold, map_fold_markKeys, hc, hl, ha,
      List.map_append, ho, bodyUsage_fold, List.map_map, Function.comp_def, TableColumn.fold_fold, true_and]

end SqlLineage.Select
