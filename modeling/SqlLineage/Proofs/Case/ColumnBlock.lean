import SqlLineage.Proofs.Case.Scope
import SqlLineage.Proofs.Definition.ColumnBlock

/-! # Column blocks in capitals

* `ColumnBlock.definitionsOf_fold`: the definitions of a block.
* `Draft.fold`: a table in the making, in capitals and without its notices.
* `ColumnBlock.read_fold`: the table that a block declares, unless a column is spelled like a placeholder. -/

namespace SqlLineage
open SqlLineage.Text SqlLineage.Token
set_option autoImplicit false

/-! ## Definitions -/

namespace ColumnBlock

theorem beginsDefinition_fold (t : Token) : beginsDefinition t.fold = beginsDefinition t := by
  simp only [beginsDefinition, isQuoted_fold, isIdentifier_fold, isOneOf_fold]

theorem pushFirst_fold (t : Token) (groups : List (List Token)) :
    pushFirst t.fold (groups.map (List.map Token.fold)) = (pushFirst t groups).map (List.map Token.fold) := by
  cases groups <;> rfl

theorem splitLines_fold (d : Int) (last : Token) (ts : List Token) :
    splitLines d last.fold (ts.map Token.fold) = (splitLines d last ts).map (List.map Token.fold) := by
  induction ts generalizing d last with
  | nil => rfl
  | cons t ts ih =>
    simp only [List.map_cons, splitLines, depthChange_fold, line_fold, beginsDefinition_fold, ih, pushFirst_fold]
    split <;> rfl

theorem definitionLines_fold (ts : List Token) :
    definitionLines (ts.map Token.fold) = (definitionLines ts).map (List.map Token.fold) := by
  cases ts with
  | nil => rfl
  | cons t ts => rw [List.map_cons, definitionLines, depthChange_fold, splitLines_fold, pushFirst_fold, definitionLines]

theorem definitionsOf_fold (ts : List Token) :
    definitionsOf (ts.map Token.fold) = (definitionsOf ts).map (List.map Token.fold) := by
  rw [definitionsOf, topLevel_fold, List.flatMap_map, definitionsOf, List.map_flatMap]
  exact List.flatMap_congr fun group _ => definitionLines_fold group

section Single
variable (ts : List Token)

theorem behindPair?_fold (first second : String) :
    behindPair? first second (ts.map Token.fold) = (behindPair? first second ts).map (List.map Token.fold) := by
  fun_induction behindPair? first second ts with
  | case1 a b ts h => simp only [List.map_cons, behindPair?, isWord_fold, h, if_true, Option.map_some]
  | case2 a b ts h ih =>
    simp only [List.map_cons, behindPair?, isWord_fold, h] at ih ⊢
    exact ih
  | case3 ts h =>
    cases ts with
    | nil => rfl
    | cons a ts =>
      cases ts with
      | nil => rfl
      | cons b ts => exact absurd rfl (h a b ts)

theorem takeWhile_fold {p : Token → Bool} (hp : ∀ t, p t.fold = p t) :
    (ts.map Token.fold).takeWhile p = (ts.takeWhile p).map Token.fold := by
  rw [List.takeWhile_map]
  exact congrArg (fun q => (ts.takeWhile q).map Token.fold) (funext hp)

theorem declaredType?_fold : declaredType? (ts.map Token.fold) = (declaredType? ts).map foldCase := by
  rw [declaredType?, takeWhile_fold, declaredType?]
  · simp only [List.isEmpty_map, spelled_fold]
    split <;> rfl
  · intro t
    rw [kind_fold, isOneOf_fold]
    cases t.kind <;> rfl

theorem columnName?_fold (t : Token) : columnName? t.fold = (columnName? t).map foldCase := by
  rw [columnName?, identifier?_fold, columnName?]
  apply Select.filter_map_foldCase
  intro name
  rw [isQuoted_fold, Keyword.isReservedForColumns_foldCase]

theorem headName?_fold : (ts.map Token.fold).head?.bind columnName? = (ts.head?.bind columnName?).map foldCase := by
  rw [List.head?_map]
  cases ts.head? with
  | none => rfl
  | some t => exact columnName?_fold t

theorem isConstraint_fold : Draft.isConstraint (ts.map Token.fold) = Draft.isConstraint ts := by
  rw [Draft.isConstraint, List.head?_map, any_map_fold fun t => t.isOneOf_fold _, Draft.isConstraint]

theorem columnReference?_fold (name : String) :
    columnReference? (foldCase name) (ts.map Token.fold) = (columnReference? name ts).map Reference.fold := by
  have hword : (fun t : Token => !t.isWord "REFERENCES") ∘ Token.fold = fun t => !t.isWord "REFERENCES" :=
    funext fun t => congrArg (! ·) (t.isWord_fold "REFERENCES")
  rw [columnReference?, List.dropWhile_map, hword, columnReference?]
  cases ts.dropWhile fun t => !t.isWord "REFERENCES" with
  | nil => rfl
  | cons t ts =>
    simp only [List.map_cons, QualifiedName.read?_fold, Option.map_map]
    refine Option.map_congr fun n _ => ?_
    simp only [Function.comp_apply, Reference.fold, QualifiedName.text_fold, QualifiedName.next_fold, nameList?_fold]
    cases nameList? ts n.next with
    | none => rfl
    | some l =>
      simp only [Option.map_some, Option.bind_some, NameList.fold, List.head?_map]
      cases l.names.head? <;> rfl

theorem foreignKey?_fold : foreignKey? (ts.map Token.fold) = (foreignKey? ts).map (List.map Reference.fold) := by
  rw [foreignKey?, nameList?_fold, foreignKey?]
  cases nameList? ts 0 with
  | none => rfl
  | some columns =>
    simp only [Option.map_some, NameList.fold, wordAt_fold, QualifiedName.read?_fold]
    split
    · simp only [Option.map_map]
      refine Option.map_congr fun n _ => ?_
      have htargets : ((nameList? (ts.map Token.fold) n.fold.next).map NameList.names).getD [] =
          (((nameList? ts n.next).map NameList.names).getD []).map foldCase := by
        rw [QualifiedName.next_fold, nameList?_fold]
        cases nameList? ts n.next <;> rfl
      simp only [Function.comp_apply, htargets, QualifiedName.text_fold, List.zipIdx_map, List.map_map]
      refine List.map_congr_left fun c _ => ?_
      simp only [Function.comp_apply, Reference.fold, List.getD_eq_getElem?_getD, List.getElem?_map, Prod.map,
        id_eq]
      cases (((nameList? ts n.next).map NameList.names).getD [])[c.2]? <;> rfl
    · rfl

end Single
end ColumnBlock

/-! ## A table in the making -/

namespace Draft
open ColumnBlock

/-- What is said of the table, in capitals and without the notices. -/
def fold (d : Draft) : Draft :=
  ⟨d.columns.map Column.fold, d.references.map Reference.fold, d.observed.map TableColumn.fold, []⟩

section Steps
variable {d d' : Draft}

theorem fold_addReference (h : d'.fold = d.fold) (r : Reference) :
    (d'.addReference r.fold).fold = (d.addReference r).fold := by
  obtain ⟨hc, hr, ho, -⟩ := Draft.mk.inj h
  simp only [addReference, fold, List.map_append, hc, hr, ho, List.map_singleton, Reference.fold_fold]
  simp only [Reference.fold, TableColumn.fold, foldCase_foldCase]

theorem fold_mark {f : Column → Column} (hf : Column.MarksOnly f) (h : d'.fold = d.fold) (names : List String) :
    (d'.mark f (names.map foldCase)).fold = (d.mark f names).fold := by
  obtain ⟨hc, hr, ho, -⟩ := Draft.mk.inj h
  have hcolumns : ∀ (names : List String) (cs cs' : List Column), cs'.map Column.fold = cs.map Column.fold →
      ((names.map foldCase).foldl (fun cs name => Column.update name f cs) cs').map Column.fold =
        (names.foldl (fun cs name => Column.update name f cs) cs).map Column.fold := by
    intro names
    induction names with
    | nil => exact fun cs cs' h => h
    | cons name names ih =>
      intro cs cs' h
      rw [List.map_cons, List.foldl_cons, List.foldl_cons]
      apply ih
      rw [Column.update_foldCase, hf.map_fold_update, hf.map_fold_update, h]
  simp only [mark, fold, hcolumns names _ _ hc, hr, ho]

theorem marksOnly_foreignKey : Column.MarksOnly fun c => { c with isForeignKey := true } := fun _ _ _ => rfl

theorem fold_addKey (h : d'.fold = d.fold) (r : Reference) : (d'.addKey r.fold).fold = (d.addKey r).fold := by
  obtain ⟨hc, hr, ho, -⟩ := Draft.mk.inj (fold_addReference h r)
  have hcolumns : (Column.update r.fold.localColumn (fun c => { c with isForeignKey := true }) d'.columns).map
        Column.fold =
      (Column.update r.localColumn (fun c => { c with isForeignKey := true }) d.columns).map Column.fold := by
    rw [Reference.fold, Column.update_foldCase, marksOnly_foreignKey.map_fold_update,
      marksOnly_foreignKey.map_fold_update, (Draft.mk.inj h).1]
  simp only [addKey, fold, hcolumns, hr, ho]

theorem fold_foldl_addKey (h : d'.fold = d.fold) (rs : List Reference) :
    ((rs.map Reference.fold).foldl addKey d').fold = (rs.foldl addKey d).fold := by
  induction rs generalizing d d' with
  | nil => exact h
  | cons r rs ih => exact ih (fold_addKey h r)

theorem fold_drop (h : d'.fold = d.fold) (n n' : Notice) : (d'.drop n').fold = (d.drop n).fold :=
  h

theorem fold_addConstraint (h : d'.fold = d.fold) (table table' : String) (definition : List Token) :
    (d'.addConstraint table' (definition.map Token.fold)).fold = (d.addConstraint table definition).fold := by
  rw [addConstraint, behindPair?_fold, behindPair?_fold, addConstraint]
  cases behindPair? "FOREIGN" "KEY" definition with
  | some ts =>
    simp only [Option.map_some, foreignKey?_fold]
    cases foreignKey? ts with
    | some rs => exact fold_foldl_addKey h rs
    | none => exact fold_drop h _ _
  | none =>
    simp only [Option.map_none]
    cases behindPair? "PRIMARY" "KEY" definition with
    | some ts =>
      simp only [Option.map_some, nameList?_fold]
      cases nameList? ts 0 with
      | some columns => exact fold_mark (fun _ _ _ => rfl) h columns.names
      | none => exact h
    | none => exact h

theorem fold_columnOf {name type : String} {reference : Option Reference} {definition : List Token}
    (h : (columnOf name type reference definition).isPlaceholder = false) :
    (columnOf (foldCase name) (foldCase type) (reference.map Reference.fold) (definition.map Token.fold)).fold =
      (columnOf name type reference definition).fold := by
  have hword : ∀ keyword, (definition.map Token.fold).any (·.isWord keyword) = definition.any (·.isWord keyword) := by
    intro keyword
    rw [List.any_map]
    exact congrArg definition.any (funext fun t => t.isWord_fold keyword)
  have hcapitals : (columnOf (foldCase name) (foldCase type) (reference.map Reference.fold)
      (definition.map Token.fold)).isPlaceholder = false := Column.isPlaceholder_foldCase ..
  rw [Column.fold_of_not_placeholder h, Column.fold_of_not_placeholder hcapitals]
  simp only [columnOf, foldCase_foldCase, behindPair?_fold, Option.isSome_map, hword]

theorem fold_addColumn (h : d'.fold = d.fold) (table table' : String) {definition : List Token}
    (heven : ∀ c ∈ (d.addColumn table definition).columns, c.isPlaceholder = false) :
    (d'.addColumn table' (definition.map Token.fold)).fold = (d.addColumn table definition).fold := by
  unfold addColumn at heven ⊢
  rw [headName?_fold, ← List.map_tail, declaredType?_fold]
  cases hn : definition.head?.bind columnName? with
  | none => exact fold_drop h _ _
  | some name =>
    cases ht : declaredType? definition.tail with
    | none => exact fold_drop h _ _
    | some type =>
      rw [hn, ht] at heven
      have hcolumn := fold_columnOf (heven _ (List.mem_append_right _ (List.mem_singleton.mpr rfl)))
      simp only [Option.map_some, columnReference?_fold]
      cases hreference : columnReference? name definition with
      | none =>
        rw [hreference] at hcolumn
        obtain ⟨hc, hr, ho, -⟩ := Draft.mk.inj h
        simp only [Option.map_none, fold, List.map_append, hc, hr, ho, List.map_singleton] at hcolumn ⊢
        rw [hcolumn]
      | some r =>
        rw [hreference] at hcolumn
        obtain ⟨hc, hr, ho, -⟩ := Draft.mk.inj (fold_addReference h r)
        simp only [Option.map_some, fold, List.map_append, hc, hr, ho, List.map_singleton] at hcolumn ⊢
        rw [hcolumn]

theorem fold_add (h : d'.fold = d.fold) (table table' : String) {definition : List Token}
    (heven : ∀ c ∈ (d.add table definition).columns, c.isPlaceholder = false) :
    (d'.add table' (definition.map Token.fold)).fold = (d.add table definition).fold := by
  unfold add at heven ⊢
  rw [isConstraint_fold]
  split
  · exact fold_addConstraint h table table' definition
  · next hno =>
    rw [if_neg hno] at heven
    exact fold_addColumn h table table' heven

end Steps

/-! ### Columns once declared -/

/-- Placeholders are told by what they declare. -/
theorem isPlaceholder_of_declared {c c' : Column} (h : c'.declared = c.declared) :
    c'.isPlaceholder = c.isPlaceholder := by
  obtain ⟨hname, htype⟩ := Prod.mk.inj h
  rw [Column.isPlaceholder, hname, htype, Column.isPlaceholder]

theorem plain_of_declared {cs cs' : List Column} (hsub : cs.map Column.declared ⊆ cs'.map Column.declared)
    (h : ∀ c ∈ cs', c.isPlaceholder = false) : ∀ c ∈ cs, c.isPlaceholder = false := by
  intro c hc
  obtain ⟨c', hc', hsame⟩ := List.mem_map.mp (hsub (List.mem_map_of_mem hc))
  rw [← isPlaceholder_of_declared hsame]
  exact h c' hc'

theorem plain_of_foldl_add {d : Draft} {table : String} {definitions : List (List Token)}
    (h : ∀ c ∈ (definitions.foldl (Draft.add table) d).columns, c.isPlaceholder = false) :
    ∀ c ∈ d.columns, c.isPlaceholder = false := by
  refine plain_of_declared ?_ h
  rw [(run_foldl table d definitions).columns_eq]
  exact List.subset_append_left _ _

theorem fold_foldl_add {d d' : Draft} (h : d'.fold = d.fold) (table table' : String) {definitions : List (List Token)}
    (heven : ∀ c ∈ (definitions.foldl (Draft.add table) d).columns, c.isPlaceholder = false) :
    ((definitions.map (List.map Token.fold)).foldl (Draft.add table') d').fold =
      (definitions.foldl (Draft.add table) d).fold := by
  induction definitions generalizing d d' with
  | nil => exact h
  | cons definition definitions ih => exact ih (fold_add h table table' (plain_of_foldl_add heven)) heven

end Draft

/-! ## Whole blocks -/

namespace ColumnBlock

theorem optionIn?_fold (keyword : String) (ts : List Token) :
    optionIn? keyword (ts.map Token.fold) = (optionIn? keyword ts).map (List.map foldCase) := by
  rw [optionIn?, findIdx?_fold ts fun t => t.isWord_fold keyword, optionIn?]
  cases ts.findIdx? (·.isWord keyword) with
  | none => rfl
  | some i =>
    simp only [Option.bind_some, nameList?_fold, Option.map_map]
    rfl

theorem option_fold (b : ColumnBlock) (keyword : String) : b.fold.option keyword = (b.option keyword).map foldCase := by
  rw [option, fold, optionIn?_fold, optionIn?_fold, option]
  cases optionIn? keyword b.before <;> cases optionIn? keyword b.after <;> rfl

/-- What a block says, in capitals, if it declares no column that is spelled like a placeholder. -/
theorem read_fold {b : ColumnBlock} {table : String}
    (h : ∀ c ∈ (b.read table).definition.columns, c.isPlaceholder = false) :
    (b.fold.read (foldCase table)).definition.fold = (b.read table).definition.fold ∧
      (b.fold.read (foldCase table)).observed.map TableColumn.fold = (b.read table).observed.map TableColumn.fold := by
  have hplain : ∀ c ∈ ((definitionsOf b.definitions).foldl (Draft.add table) .empty).columns,
      c.isPlaceholder = false := by
    refine Draft.plain_of_declared ?_ h
    exact b.map_declared_draft table ▸ List.Subset.refl _
  have hdraft : (b.fold.draft (foldCase table)).fold = (b.draft table).fold := by
    rw [draft, option_fold, option_fold, draft]
    apply Draft.fold_mark fun _ _ _ => rfl
    apply Draft.fold_mark fun _ _ _ => rfl
    rw [fold, definitionsOf_fold]
    exact Draft.fold_foldl_add rfl table (foldCase table) hplain
  obtain ⟨hc, hr, ho, -⟩ := Draft.mk.inj hdraft
  refine ⟨?_, ho⟩
  simp only [read, Definition.fold, foldCase_foldCase, hc, hr]

end ColumnBlock
end SqlLineage
