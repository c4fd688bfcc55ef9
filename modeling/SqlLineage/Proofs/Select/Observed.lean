import SqlLineage.ColumnBlock
import SqlLineage.Proofs.Select.Sources

/-! # Whatever a definition takes is observed

A definition takes columns of other tables: lineage names them, and foreign keys do. Of a table that is
defined, and of a common table expression of the statement, nothing needs to be observed; everything else that
is taken has been.

* `Definition.sources`: the columns that a definition takes.
* `Environment.Accounts`: whether a column is observed, or no stub will be asked for it.
* `Select.accounts_read`, `ColumnBlock.observed_read`: it is so of everything that a query body takes, and a
  column block observes what it takes.
* `Select.observed_read`: a body observes columns of the tables that it refers to only, and of none that its
  statement files. -/

namespace SqlLineage
open SqlLineage.Text
set_option autoImplicit false

namespace Definition

/-- The columns of other tables that a definition refers to; a mere use of a table has no column name. -/
def sources (d : Definition) : List TableColumn :=
  (d.references.map fun r => ⟨r.table, r.column⟩) ++ d.lineage.map fun r => ⟨r.sourceTable, r.sourceColumn⟩

theorem sources_mapReferenced (f : String → String) (d : Definition) :
    (d.mapReferenced f).sources = d.sources.map fun p => ⟨f p.table, p.column⟩ := by
  simp [sources, mapReferenced, Function.comp_def]

theorem sources_renameColumns (d : Definition) (names : List String) : (d.renameColumns names).sources = d.sources := by
  rw [sources, sources, references_renameColumns, renameColumns, map_foldl_retarget fun _ _ => rfl]

end Definition

/-- The column is observed, or its table is defined or a common table expression of the statement. -/
def Environment.Accounts (env : Environment) (os : List TableColumn) (p : TableColumn) : Prop :=
  p ∈ os ∨ env.registry.defines p.table = true ∨ env.ctes.files p.table = true

namespace Environment

theorem Accounts.mono {env : Environment} {os os' : List TableColumn} {p : TableColumn} (h : env.Accounts os p)
    (hos : os ⊆ os') : env.Accounts os' p :=
  h.imp_left fun hp => hos hp

theorem accounts_of_observed {env : Environment} {os : List TableColumn} {table column : String}
    (h : env.observed table column ⊆ os) : env.Accounts os ⟨table, column⟩ := by
  by_cases hf : env.ctes.files table = true
  · exact .inr (.inr hf)
  · refine .inl (h ?_)
    rw [observed, if_neg hf]
    exact List.mem_singleton_self _

theorem mem_observed {env : Environment} {table column : String} {o : TableColumn} (h : o ∈ env.observed table column) :
    o = ⟨table, column⟩ ∧ env.ctes.files table = false := by
  unfold observed at h
  split at h
  · cases h
  · next hfiles => exact ⟨List.mem_singleton.mp h, (Bool.not_eq_true _).mp hfiles⟩

end Environment

namespace Select

/-! ## Projections -/

section Projections
variable {env : Environment} {scope : Scope}

theorem mem_usedTables (h : scope.Grounded) {calculated : Bool} {r : ColumnRef} {s : TableColumn}
    (hs : sourceOf? scope calculated r = some s) : s.table ∈ usedTables scope r ∧ s.column = r.column := by
  have hground := table_mem_of_sourceOf h hs
  unfold sourceOf? at hs
  unfold usedTables
  split at hs
  · obtain ⟨t, ht, rfl⟩ := Option.map_eq_some_iff.mp hs
    exact ⟨Option.mem_toList.mpr ht, rfl⟩
  · obtain ⟨t, -, rfl⟩ := Option.map_eq_some_iff.mp hs
    exact ⟨hground, rfl⟩

theorem observed_subset_observe (h : scope.Grounded) {calculated : Bool} {r : ColumnRef} {s : TableColumn}
    (hs : sourceOf? scope calculated r = some s) : env.observed s.table s.column ⊆ observe env scope r := by
  obtain ⟨ht, hc⟩ := mem_usedTables h hs
  rw [hc]
  exact fun o ho => List.mem_flatMap.mpr ⟨s.table, ht, ho⟩

theorem ascribed_observe (h : scope.Grounded) {r : ColumnRef} {o : TableColumn} (ho : o ∈ observe env scope r) :
    o.table ∈ scope.referenced ∧ env.ctes.files o.table = false := by
  obtain ⟨t, ht, ho⟩ := List.mem_flatMap.mp ho
  obtain ⟨rfl, hfiles⟩ := Environment.mem_observed ho
  refine ⟨?_, hfiles⟩
  unfold usedTables at ht
  split at ht
  · exact h.resolve_mem _ t (Option.mem_toList.mp ht)
  · exact ht

namespace Projection

/-- All that the lineage takes is accounted for by what is observed so far. -/
def Accounted (env : Environment) (p : Projection) : Prop :=
  ∀ r ∈ p.lineage, env.Accounts p.observed ⟨r.sourceTable, r.sourceColumn⟩

theorem accounted_of_append {p q : Projection} (hp : p.Accounted env) {rs : List LineageRecord}
    {os : List TableColumn} (hlineage : q.lineage = p.lineage ++ rs) (hobserved : q.observed = p.observed ++ os)
    (hrs : ∀ r ∈ rs, env.Accounts q.observed ⟨r.sourceTable, r.sourceColumn⟩) : q.Accounted env := by
  intro r hr
  rw [hlineage] at hr
  rcases List.mem_append.mp hr with hr | hr
  · exact (hp r hr).mono (by rw [hobserved]; exact List.subset_append_left _ _)
  · exact hrs r hr

theorem observed_addStarColumn (p : Projection) : p.addStarColumn.observed = p.observed := by
  unfold addStarColumn
  split <;> rfl

theorem Accounted.addTable {p : Projection} (hp : p.Accounted env) (table : String) :
    (p.addTable env table).Accounted env := by
  unfold Projection.addTable
  split
  · next d hd =>
    refine accounted_of_append hp rfl (List.append_nil p.observed).symm fun r hr => ?_
    obtain ⟨c, -, rfl⟩ := List.mem_map.mp hr
    refine .inr (.inl ?_)
    rw [Registry.defines, (Option.filter_eq_some_iff.mp hd).1]
    rfl
  · dsimp only
    refine accounted_of_append hp (by rw [lineage_addStarColumn]) (by rw [observed_addStarColumn]) fun r hr => ?_
    obtain rfl := List.mem_singleton.mp hr
    exact Environment.accounts_of_observed (List.subset_append_right _ _)

theorem Accounted.addExpr (h : scope.Grounded) {p : Projection} (hp : p.Accounted env) (alias? : Option String)
    (body : List Token) : (p.addExpr env scope alias? body).Accounted env := by
  rw [Projection.addExpr]
  dsimp only
  split
  · exact accounted_of_append hp (List.append_nil p.lineage).symm rfl fun r hr => by cases hr
  · refine accounted_of_append hp rfl rfl fun r hr => ?_
    obtain ⟨s, hs, rfl⟩ := List.mem_map.mp hr
    rw [mem_foldl_appendNew, or_iff_right List.not_mem_nil] at hs
    obtain ⟨c, hc, hcs⟩ := List.mem_filterMap.mp hs
    refine Environment.accounts_of_observed fun o ho => List.mem_append_right _ ?_
    exact List.mem_flatMap.mpr ⟨c, hc, observed_subset_observe h hcs ho⟩

theorem accounted_read (h : scope.Grounded) (ts : List Token) (select : Nat) :
    (read env scope ts select).Accounted env := by
  refine read_induction (P := Accounted env) (fun r hr => ?_) (fun p hp r hr => ?_)
    (fun p hp _ t _ => hp.addTable t) (fun p as hp => hp) (fun p alias? body hp => hp.addExpr h alias? body) ts select
  · cases hr
  · rw [lineage_addStarColumn] at hr
    rw [observed_addStarColumn]
    exact hp r hr

/-- All that is observed is observed of tables in scope, and of none that the statement files itself. -/
def Ascribed (env : Environment) (scope : Scope) (p : Projection) : Prop :=
  ∀ o ∈ p.observed, o.table ∈ scope.referenced ∧ env.ctes.files o.table = false

theorem ascribed_of_append {p q : Projection} (hp : p.Ascribed env scope) {os : List TableColumn}
    (hobserved : q.observed = p.observed ++ os)
    (hos : ∀ o ∈ os, o.table ∈ scope.referenced ∧ env.ctes.files o.table = false) : q.Ascribed env scope := by
  intro o ho
  rw [hobserved] at ho
  rcases List.mem_append.mp ho with ho | ho
  · exact hp o ho
  · exact hos o ho

theorem Ascribed.addTable {p : Projection} (hp : p.Ascribed env scope) {table : String}
    (ht : table ∈ scope.referenced) : (p.addTable env table).Ascribed env scope := by
  unfold Projection.addTable
  split
  · exact hp
  · dsimp only
    refine ascribed_of_append hp (by rw [observed_addStarColumn]) fun o ho => ?_
    obtain ⟨rfl, hfiles⟩ := Environment.mem_observed ho
    exact ⟨ht, hfiles⟩

theorem Ascribed.addExpr (h : scope.Grounded) {p : Projection} (hp : p.Ascribed env scope) (alias? : Option String)
    (body : List Token) : (p.addExpr env scope alias? body).Ascribed env scope := by
  have hrefs : ∀ o ∈ (countingRefs scope body).flatMap (observe env scope),
      o.table ∈ scope.referenced ∧ env.ctes.files o.table = false := by
    intro o ho
    obtain ⟨r, -, ho⟩ := List.mem_flatMap.mp ho
    exact ascribed_observe h ho
  rw [Projection.addExpr]
  dsimp only
  split <;> exact ascribed_of_append hp rfl hrefs

theorem ascribed_read (h : scope.Grounded) (ts : List Token) (select : Nat) :
    (read env scope ts select).Ascribed env scope := by
  refine read_induction (P := Ascribed env scope) (fun o ho => ?_) (fun p hp o ho => ?_)
    (fun p hp _ t ht => hp.addTable (mem_of_mem_starTables h t ht)) (fun p as hp => hp)
    (fun p alias? body hp => hp.addExpr h alias? body) ts select
  · cases ho
  · rw [observed_addStarColumn] at ho
    exact hp o ho

end Projection
end Projections

/-! ## Query bodies -/

theorem accounts_read {env : Environment} {ts : List Token} {name : String} {kind : Definition.Kind} {p : TableColumn}
    (hp : p ∈ (read env ts name kind).definition.sources) (hc : p.column ≠ "") :
    env.Accounts (read env ts name kind).observed p := by
  rw [Definition.sources, references_read, List.map_map] at hp
  rcases List.mem_append.mp hp with hp | hp
  · obtain ⟨t, -, rfl⟩ := List.mem_map.mp hp
    exact absurd rfl hc
  · obtain ⟨r, hr, rfl⟩ := List.mem_map.mp hp
    unfold read at hr ⊢
    split at hr
    · exact (Projection.accounted_read (grounded_scopeOf env ts) ts _ r hr).mono (List.subset_append_left _ _)
    · cases hr

/-- Whatever a body observes is a column of a table that it refers to, and of none that the statement files. -/
theorem observed_read {env : Environment} {ts : List Token} {name : String} {kind : Definition.Kind} {o : TableColumn}
    (ho : o ∈ (read env ts name kind).observed) :
    o.table ∈ (read env ts name kind).definition.referenced ∧ env.ctes.files o.table = false := by
  have hground := grounded_scopeOf env ts
  have hscope : o.table ∈ (scopeOf env ts).referenced ∧ env.ctes.files o.table = false := by
    unfold read at ho
    split at ho
    · rcases List.mem_append.mp ho with ho | ho
      · exact Projection.ascribed_read hground ts _ o ho
      · obtain ⟨r, -, ho⟩ := List.mem_flatMap.mp ho
        exact ascribed_observe hground ho
    · cases ho
  refine ⟨?_, hscope.2⟩
  rw [mem_referenced_read, ← Scope.mem_referenced_ofMentions, ← scopeOf_eq]
  exact hscope.1

end Select

/-! ## Column blocks -/

namespace Draft

/-- The targets of the references are what is observed. -/
def Targets (d : Draft) : Prop :=
  d.observed = d.references.map fun r => ⟨r.table, r.column⟩

theorem Targets.addReference {d : Draft} (h : d.Targets) (r : Reference) : (d.addReference r).Targets := by
  rw [Targets, Draft.addReference, h, List.map_append]
  rfl

theorem Targets.add {d : Draft} (h : d.Targets) (table : String) (definition : List Token) :
    (d.add table definition).Targets := by
  unfold Draft.add
  split
  · unfold addConstraint
    split
    · split
      · apply List.foldlRecOn (motive := Targets) _ _ h
        exact fun d hd r _ => hd.addReference r
      · exact h
    · split
      · split <;> exact h
      · exact h
  · unfold addColumn
    split
    · dsimp only
      split
      · exact h.addReference _
      · exact h
    · exact h

end Draft

namespace ColumnBlock

/-- A column block observes what its definition takes. -/
theorem observed_read (b : ColumnBlock) (table : String) :
    (b.read table).observed = (b.read table).definition.sources := by
  have htargets : (b.draft table).Targets := by
    have hempty : Draft.empty.Targets := rfl
    apply List.foldlRecOn (motive := Draft.Targets) _ _ hempty
    exact fun d hd x _ => hd.add table x
  have hobserved : (b.draft table).observed = (b.draft table).references.map fun r => ⟨r.table, r.column⟩ := htargets
  rw [read, Definition.sources, hobserved]
  exact (List.append_nil _).symm

end ColumnBlock
end SqlLineage
