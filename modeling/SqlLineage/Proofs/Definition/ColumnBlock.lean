import SqlLineage.Proofs.Token.Groups

/-! # What becomes of the definitions of a column block

A block is cut into definitions and every one of them is accounted for.

* `ColumnBlock.flatten_definitionsOf`: nothing but the commas between definitions is lost when a block is cut.
* `Draft.Step`, `Draft.step_add`: what a definition makes of a draft.
* `Draft.Run`, `ColumnBlock.read_accounted`: the table of a block comes from its definitions, one after the other. -/

namespace SqlLineage
open SqlLineage.Token
set_option autoImplicit false

/-! ## Cutting a block -/

namespace ColumnBlock

theorem flatten_pushFirst (t : Token) (groups : List (List Token)) :
    (pushFirst t groups).flatten = t :: groups.flatten := by
  cases groups <;> rfl

theorem flatten_splitLines (d : Int) (last : Token) (ts : List Token) : (splitLines d last ts).flatten = ts := by
  induction ts generalizing d last with
  | nil => rfl
  | cons t ts ih =>
    have hrest : (pushFirst t (splitLines (d + t.depthChange) t ts)).flatten = t :: ts := by
      rw [flatten_pushFirst, ih]
    rw [splitLines]
    split
    · exact hrest
    · exact hrest

theorem flatten_definitionLines (ts : List Token) : (definitionLines ts).flatten = ts := by
  cases ts with
  | nil => rfl
  | cons t ts => rw [definitionLines, flatten_pushFirst, flatten_splitLines]

theorem flatten_definitionsOf (ts : List Token) : (definitionsOf ts).flatten = withoutSeparators ts := by
  have hlines : List.flatten ∘ definitionLines = id := funext flatten_definitionLines
  rw [definitionsOf, List.flatMap_def, List.flatten_flatten, List.map_map, hlines, List.map_id, flatten_topLevel]

theorem nil_not_mem_definitionsOf (ts : List Token) : [] ∉ definitionsOf ts := by
  intro h
  obtain ⟨group, -, hmem⟩ := List.mem_flatMap.mp h
  exact nonempty_definitionLines group [] hmem rfl

/-- The tokens say `( columns ) REFERENCES target`, where more may follow. -/
structure IsForeignKey (ts : List Token) (columns : NameList) (target : QualifiedName) : Prop where
  list : nameList? ts 0 = some columns
  word : wordAt ts columns.next "REFERENCES" = true
  name : QualifiedName.read? ts (columns.next + 1) = some target

theorem foreignKey?_of_isForeignKey {ts : List Token} {columns : NameList} {target : QualifiedName}
    (h : IsForeignKey ts columns target) :
    ∃ rs, foreignKey? ts = some rs ∧ rs.map Reference.localColumn = columns.names ∧
      ∀ r ∈ rs, r.table = target.text := by
  unfold foreignKey?
  rw [h.list]
  dsimp only
  rw [if_pos h.word, h.name, Option.map_some]
  refine ⟨_, rfl, ?_, ?_⟩
  · rw [List.map_map]
    exact List.zipIdx_map_fst 0 columns.names
  · intro r hr
    obtain ⟨c, -, rfl⟩ := List.mem_map.mp hr
    rfl

theorem exists_isForeignKey {ts : List Token} {rs : List Reference} (h : foreignKey? ts = some rs) :
    ∃ columns target, IsForeignKey ts columns target := by
  unfold foreignKey? at h
  split at h
  · cases h
  · next columns hcolumns =>
    split at h
    · next hword =>
      obtain ⟨target, htarget, -⟩ := Option.map_eq_some_iff.mp h
      exact ⟨columns, target, hcolumns, hword, htarget⟩
    · cases h

theorem localColumn_of_columnReference? {name : String} {definition : List Token} {r : Reference}
    (h : columnReference? name definition = some r) : r.localColumn = name := by
  unfold columnReference? at h
  split at h
  · cases h
  · obtain ⟨target, -, rfl⟩ := Option.map_eq_some_iff.mp h
    rfl

end ColumnBlock

/-! ## Single definitions -/

/-- The name and the type of a column, which no key touches. -/
def Column.declared (c : Column) : String × String :=
  (c.name, c.declaredType)

/-- The name and the type at the head of a definition, if it declares a column. -/
def ColumnBlock.declared? (definition : List Token) : Option (String × String) :=
  (definition.head?.bind columnName?).bind fun name => (declaredType? definition.tail).map fun type => (name, type)

theorem Column.map_declared_update {f : Column → Column} (hf : ∀ c, (f c).declared = c.declared) (name : String)
    (cs : List Column) : (update name f cs).map declared = cs.map declared := by
  induction cs with
  | nil => rfl
  | cons c cs ih =>
    rw [update]
    split
    · rw [List.map_cons, hf, List.map_cons]
    · rw [List.map_cons, ih, List.map_cons]

/-- The column that counts as used where a reference leads to it. -/
def Reference.target (r : Reference) : TableColumn :=
  ⟨r.table, r.column⟩

namespace Draft
open ColumnBlock

/-- What a definition makes of a draft. A column is added, or it is given up with a notice and the draft stays as it is
otherwise; a foreign key adds a reference for each of its columns, or is given up in the same way; all that other
constraints can do is to mark columns. -/
inductive Step (table : String) (definition : List Token) (d : Draft) : Draft → Prop where
  | column {c : Column} {rs : List Reference} (hkind : isConstraint definition = false)
    (hc : declared? definition = some c.declared) (hrs : rs.length ≤ 1 ∧ ∀ r ∈ rs, r.localColumn = c.name) :
    Step table definition d ⟨d.columns ++ [c], d.references ++ rs, d.observed ++ rs.map Reference.target, d.notices⟩
  | noColumn (hkind : isConstraint definition = false) (hno : declared? definition = none) :
    Step table definition d (d.drop (.noColumn table definition))
  | foreignKey {ts : List Token} {columns : NameList} {target : QualifiedName} {cs : List Column} {rs : List Reference}
    (hkind : isConstraint definition = true) (hts : behindPair? "FOREIGN" "KEY" definition = some ts)
    (hkey : IsForeignKey ts columns target) (hcs : cs.map Column.declared = d.columns.map Column.declared)
    (hrs : rs.map Reference.localColumn = columns.names ∧ ∀ r ∈ rs, r.table = target.text) :
    Step table definition d ⟨cs, d.references ++ rs, d.observed ++ rs.map Reference.target, d.notices⟩
  | malformedKey {ts : List Token} (hkind : isConstraint definition = true)
    (hts : behindPair? "FOREIGN" "KEY" definition = some ts)
    (hno : ∀ columns target, ¬ IsForeignKey ts columns target) :
    Step table definition d (d.drop (.malformedKey table definition))
  | otherConstraint {cs : List Column} (hkind : isConstraint definition = true)
    (hno : behindPair? "FOREIGN" "KEY" definition = none)
    (hcs : cs.map Column.declared = d.columns.map Column.declared) :
    Step table definition d { d with columns := cs }

theorem map_declared_mark {f : Column → Column} (hf : ∀ c, (f c).declared = c.declared) (d : Draft)
    (names : List String) : (d.mark f names).columns.map Column.declared = d.columns.map Column.declared := by
  change (names.foldl (fun cs name => Column.update name f cs) d.columns).map Column.declared = _
  refine List.foldlRecOn (motive := fun cs : List Column => cs.map Column.declared = d.columns.map Column.declared)
    _ _ rfl ?_
  exact fun cs hcs name _ => (Column.map_declared_update hf name cs).trans hcs

/-- The references of a foreign key are added in order, and no column comes or goes. -/
theorem foldl_addKey (d : Draft) (rs : List Reference) :
    ∃ cs, cs.map Column.declared = d.columns.map Column.declared ∧
      rs.foldl addKey d = ⟨cs, d.references ++ rs, d.observed ++ rs.map Reference.target, d.notices⟩ := by
  induction rs generalizing d with
  | nil => exact ⟨d.columns, rfl, by rw [List.map_nil, List.append_nil, List.append_nil]; rfl⟩
  | cons r rs ih =>
    obtain ⟨cs, hcs, hfold⟩ := ih (d.addKey r)
    refine ⟨cs, hcs.trans (Column.map_declared_update ?_ r.localColumn d.columns), ?_⟩
    · exact fun _ => rfl
    rw [List.foldl_cons, hfold, addKey, addReference, List.append_assoc, List.append_assoc]
    rfl

theorem step_addConstraint (table : String) (d : Draft) {definition : List Token}
    (h : isConstraint definition = true) : Step table definition d (d.addConstraint table definition) := by
  unfold addConstraint
  cases hforeign : behindPair? "FOREIGN" "KEY" definition with
  | some ts =>
    dsimp only
    cases hkey : foreignKey? ts with
    | some rs =>
      obtain ⟨columns, target, hkeys⟩ := exists_isForeignKey hkey
      obtain ⟨rs', hrs', hlocal, htable⟩ := foreignKey?_of_isForeignKey hkeys
      obtain rfl := Option.some.inj (hkey.symm.trans hrs')
      obtain ⟨cs, hcs, hfold⟩ := d.foldl_addKey rs
      dsimp only
      rw [hfold]
      exact .foreignKey h hforeign hkeys hcs ⟨hlocal, htable⟩
    | none =>
      refine .malformedKey h hforeign fun columns target hkeys => ?_
      obtain ⟨rs, hrs, -⟩ := foreignKey?_of_isForeignKey hkeys
      rw [hkey] at hrs
      cases hrs
  | none =>
    dsimp only
    split
    · split
      · refine .otherConstraint h hforeign (map_declared_mark ?_ d _)
        exact fun _ => rfl
      · exact .otherConstraint h hforeign rfl
    · exact .otherConstraint h hforeign rfl

theorem step_addColumn (table : String) (d : Draft) {definition : List Token}
    (h : isConstraint definition = false) : Step table definition d (d.addColumn table definition) := by
  unfold addColumn
  cases hname : definition.head?.bind columnName? with
  | none => exact .noColumn h (by rw [declared?, hname, Option.bind_none])
  | some name =>
    cases htype : declaredType? definition.tail with
    | none => exact .noColumn h (by rw [declared?, hname, htype, Option.bind_some, Option.map_none])
    | some type =>
      have hc : ∀ reference, declared? definition = some (columnOf name type reference definition).declared := by
        intro reference
        rw [declared?, hname, htype]
        rfl
      dsimp only
      cases hreference : columnReference? name definition with
      | none =>
        have hstep : Step table definition d ⟨d.columns ++ [columnOf name type none definition], d.references ++ [],
            d.observed ++ [].map Reference.target, d.notices⟩ :=
          .column h (hc none) ⟨Nat.zero_le 1, by simp⟩
        rwa [List.append_nil, List.map_nil, List.append_nil] at hstep
      | some r =>
        have hlocal : ∀ r' ∈ [r], r'.localColumn = name := by simpa using localColumn_of_columnReference? hreference
        have hstep : Step table definition d ⟨d.columns ++ [columnOf name type (some r) definition],
            d.references ++ [r], d.observed ++ [r].map Reference.target, d.notices⟩ :=
          .column h (hc (some r)) ⟨Nat.le_refl 1, hlocal⟩
        exact hstep

theorem step_add (table : String) (d : Draft) (definition : List Token) :
    Step table definition d (d.add table definition) := by
  unfold add
  split
  · next h => exact step_addConstraint table d h
  · next h => exact step_addColumn table d (Bool.eq_false_iff.mpr h)

/-! ## All definitions in turn -/

/-- The definitions make one draft of another, each of them in its turn. -/
inductive Run (table : String) : Draft → List (List Token) → Draft → Prop where
  | done (d : Draft) : Run table d [] d
  | step {d d' d'' : Draft} {definition : List Token} {definitions : List (List Token)}
    (hstep : Step table definition d d') (hrest : Run table d' definitions d'') :
    Run table d (definition :: definitions) d''

theorem run_foldl (table : String) (d : Draft) (definitions : List (List Token)) :
    Run table d definitions (definitions.foldl (Draft.add table) d) := by
  induction definitions generalizing d with
  | nil => exact .done d
  | cons definition definitions ih => exact .step (step_add table d definition) (ih _)

section Reading
variable {table : String} {d d' : Draft}

theorem Step.columns_eq {definition : List Token} (h : Step table definition d d') :
    d'.columns.map Column.declared = d.columns.map Column.declared ++
      (if isConstraint definition then none else declared? definition).toList := by
  cases h with
  | column hkind hc => simp [hkind, hc]
  | noColumn hkind hno => simp [hkind, hno, drop]
  | foreignKey hkind _ _ hcs => simp [hkind, hcs]
  | malformedKey hkind => simp [hkind, drop]
  | otherConstraint hkind _ hcs => simp [hkind, hcs]

theorem Step.notices_eq {definition : List Token} (h : Step table definition d d') :
    d'.notices = d.notices ∨ ∃ n, d'.notices = d.notices ++ [n] ∧ n.kind = .droppedDefinition ∧ n.subject = table := by
  cases h with
  | column => exact .inl rfl
  | noColumn => exact .inr ⟨_, rfl, rfl, rfl⟩
  | foreignKey => exact .inl rfl
  | malformedKey => exact .inr ⟨_, rfl, rfl, rfl⟩
  | otherConstraint => exact .inl rfl

/-- The columns are what the definitions declare, in order. -/
theorem Run.columns_eq {definitions : List (List Token)} (h : Run table d definitions d') :
    d'.columns.map Column.declared = d.columns.map Column.declared ++
      (definitions.filter fun x => !isConstraint x).filterMap declared? := by
  induction h with
  | done => simp
  | @step d d' d'' definition definitions hstep _ ih =>
    rw [ih, hstep.columns_eq, List.append_assoc]
    cases hkind : isConstraint definition with
    | true => simp [hkind]
    | false => cases hdeclared : declared? definition <;> simp [hkind, hdeclared]

theorem Run.mem_notices {definitions : List (List Token)} (h : Run table d definitions d') :
    ∀ n ∈ d'.notices, n ∈ d.notices ∨ n.kind = .droppedDefinition ∧ n.subject = table := by
  induction h with
  | done => exact fun n hn => .inl hn
  | step hstep _ ih =>
    intro n hn
    rcases ih n hn with hn | hn
    · rcases hstep.notices_eq with heq | ⟨n', heq, hn'⟩
      · exact .inl (heq ▸ hn)
      · rw [heq] at hn
        rcases List.mem_append.mp hn with hn | hn
        · exact .inl hn
        · exact .inr (List.mem_singleton.mp hn ▸ hn')
    · exact .inr hn

end Reading
end Draft

namespace ColumnBlock

/-- The references that a definition of a block adds. -/
def referencesIn (definition : List Token) : List Reference :=
  if Draft.isConstraint definition then ((behindPair? "FOREIGN" "KEY" definition).bind foreignKey?).getD []
  else match definition.head?.bind columnName?, declaredType? definition.tail with
    | some name, some _ => (columnReference? name definition).toList
    | _, _ => []

theorem references_add (table : String) (d : Draft) (definition : List Token) :
    (d.add table definition).references = d.references ++ referencesIn definition := by
  unfold Draft.add referencesIn
  split
  · unfold Draft.addConstraint
    cases behindPair? "FOREIGN" "KEY" definition with
    | some ts =>
      simp only [Option.bind_some]
      cases foreignKey? ts with
      | some rs =>
        obtain ⟨cs, -, hfold⟩ := d.foldl_addKey rs
        exact congrArg Draft.references hfold
      | none => exact (List.append_nil _).symm
    | none =>
      simp only [Option.bind_none, Option.getD_none, List.append_nil]
      split
      · split <;> rfl
      · rfl
  · unfold Draft.addColumn
    cases definition.head?.bind columnName? with
    | none => exact (List.append_nil _).symm
    | some name =>
      cases declaredType? definition.tail with
      | none => exact (List.append_nil _).symm
      | some type =>
        dsimp only
        cases columnReference? name definition with
        | none => exact (List.append_nil _).symm
        | some r => rfl

theorem references_draft (b : ColumnBlock) (table : String) :
    (b.draft table).references = (definitionsOf b.definitions).flatMap referencesIn := by
  have hall : ∀ (definitions : List (List Token)) (d : Draft),
      (definitions.foldl (Draft.add table) d).references = d.references ++ definitions.flatMap referencesIn := by
    intro definitions
    induction definitions with
    | nil => exact fun d => (List.append_nil _).symm
    | cons definition definitions ih =>
      intro d
      rw [List.foldl_cons, ih, references_add, List.flatMap_cons, List.append_assoc]
  exact hall _ Draft.empty

/-- Table options mark columns and do no more. -/
theorem map_declared_draft (b : ColumnBlock) (table : String) : (b.draft table).columns.map Column.declared =
    ((definitionsOf b.definitions).foldl (Draft.add table) .empty).columns.map Column.declared := by
  refine (Draft.map_declared_mark ?_ _ _).trans (Draft.map_declared_mark ?_ _ _)
  · exact fun _ => rfl
  · exact fun _ => rfl

theorem mem_notices_read {b : ColumnBlock} {table : String} {n : Notice} (hn : n ∈ (b.read table).notices) :
    n.kind = .droppedDefinition ∧ n.subject = table := by
  have hrun := Draft.run_foldl table .empty (definitionsOf b.definitions)
  exact (hrun.mem_notices n hn).resolve_left List.not_mem_nil

/-- A block is cut into definitions that are not empty, and only the commas between them are lost. The table of the
block is what the definitions make of an empty draft, each in its turn, where the table options only mark columns; all
that the inventory gets from it is what this draft observed and its notices. -/
theorem read_accounted (inv : Inventory) (b : ColumnBlock) (table : String) :
    (definitionsOf b.definitions).flatten = withoutSeparators b.definitions ∧ [] ∉ definitionsOf b.definitions ∧
    ∃ d, Draft.Run table .empty (definitionsOf b.definitions) d ∧
      d.columns.map Column.declared =
        ((definitionsOf b.definitions).filter fun x => !Draft.isConstraint x).filterMap declared? ∧
      (∀ n ∈ d.notices, n.kind = .droppedDefinition ∧ n.subject = table) ∧
      (b.read table).definition.columns.map Column.declared = d.columns.map Column.declared ∧
      (b.read table).definition.references = d.references ∧
      inv.absorb (b.read table) = ⟨inv.registry, inv.usage.recordAll d.observed, inv.notices ++ d.notices⟩ := by
  have hrun := Draft.run_foldl table .empty (definitionsOf b.definitions)
  exact ⟨flatten_definitionsOf _, nil_not_mem_definitionsOf _, _, hrun, hrun.columns_eq, fun _ => mem_notices_read,
    b.map_declared_draft table, rfl, rfl⟩

end ColumnBlock
end SqlLineage
