import SqlLineage.Select.Body

/-! # Where lineage comes from

The references of a query body are the tables that it names, as they are resolved there, and its lineage
comes from no other tables.

* `Scope.Grounded`: whatever a scope leads to is one of the tables that it refers to.
* `Select.sourceTable_mem_read`: so lineage does not leave these tables.
* `Select.mem_referenced_read`: what the definition of a body refers to. -/

namespace SqlLineage.Select
open SqlLineage.Text
set_option autoImplicit false

/-! ## Scopes -/

namespace Scope

theorem referenced_foldl_call (table : String) (names : List String) (s : Scope) :
    (names.foldl (fun s name => s.call table name) s).referenced = s.referenced := by
  induction names generalizing s with
  | nil => rfl
  | cons name names ih => exact ih _

theorem topLevel_foldl_call (table : String) (names : List String) (s : Scope) :
    (names.foldl (fun s name => s.call table name) s).topLevel = s.topLevel := by
  induction names generalizing s with
  | nil => rfl
  | cons name names ih => exact ih _

theorem resolve?_foldl_call (table : String) (names : List String) (s : Scope) (q : String) :
    (names.foldl (fun s name => s.call table name) s).resolve? q =
      if upper q ∈ names.map upper then some table else s.resolve? q := by
  induction names generalizing s with
  | nil => rfl
  | cons name names ih =>
    have hcall : (s.call table name).resolve? q = if upper q = upper name then some table else s.resolve? q :=
      OrderedMap.find?_insert ..
    rw [List.foldl_cons, ih, hcall, List.map_cons]
    by_cases hn : upper q = upper name
    · simp [hn]
    · simp [hn]

theorem referenced_add (s : Scope) (table : String) (m : Mention) :
    (s.add table m).referenced = appendNew s.referenced table :=
  referenced_foldl_call ..

theorem topLevel_add (s : Scope) (table : String) (m : Mention) :
    (s.add table m).topLevel = if m.topLevel then appendNew s.topLevel table else s.topLevel :=
  topLevel_foldl_call ..

theorem resolve?_add (s : Scope) (table : String) (m : Mention) (q : String) :
    (s.add table m).resolve? q =
      if upper q ∈ (namesOf table m.table).map upper then some table else s.resolve? q :=
  resolve?_foldl_call ..

/-- What a scope says of tables is said of tables that it refers to. -/
structure Grounded (s : Scope) : Prop where
  topLevel_mem : ∀ t ∈ s.topLevel, t ∈ s.referenced
  resolve_mem : ∀ q t, s.resolve? q = some t → t ∈ s.referenced

theorem Grounded.add {s : Scope} (h : s.Grounded) (table : String) (m : Mention) : (s.add table m).Grounded where
  topLevel_mem := by
    intro t ht
    rw [topLevel_add] at ht
    rw [referenced_add, mem_appendNew]
    split at ht
    · exact (mem_appendNew.mp ht).imp_left (h.topLevel_mem t)
    · exact .inl (h.topLevel_mem t ht)
  resolve_mem := by
    intro q t ht
    rw [resolve?_add] at ht
    rw [referenced_add, mem_appendNew]
    split at ht
    · exact .inr (Option.some.inj ht).symm
    · exact .inl (h.resolve_mem q t ht)

theorem grounded_ofMentions (env : Environment) (ms : List Mention) : (ofMentions env ms).Grounded := by
  have hall : ∀ s : Scope, s.Grounded →
      (ms.foldl (fun s m => s.add (env.resolve m.table.text) m) s).Grounded := by
    induction ms with
    | nil => exact fun s hs => hs
    | cons m ms ih => exact fun s hs => ih _ (hs.add _ m)
  refine hall empty ⟨?_, ?_⟩
  · intro t ht
    cases ht
  · intro q t ht
    cases ht

theorem referenced_ofMentions (env : Environment) (ms : List Mention) :
    (ofMentions env ms).referenced = (ms.map fun m => env.resolve m.table.text).foldl appendNew [] := by
  have hall : ∀ s : Scope, (ms.foldl (fun s m => s.add (env.resolve m.table.text) m) s).referenced =
      (ms.map fun m => env.resolve m.table.text).foldl appendNew s.referenced := by
    induction ms with
    | nil => exact fun s => rfl
    | cons m ms ih =>
      intro s
      rw [List.foldl_cons, ih, referenced_add, List.map_cons, List.foldl_cons]
  exact hall empty

theorem topLevel_ofMentions (env : Environment) {ms : List Mention} (h : ∀ m ∈ ms, m.topLevel = true) :
    (ofMentions env ms).topLevel = (ms.map fun m => env.resolve m.table.text).foldl appendNew [] := by
  have hall : ∀ s : Scope, (ms.foldl (fun s m => s.add (env.resolve m.table.text) m) s).topLevel =
      (ms.map fun m => env.resolve m.table.text).foldl appendNew s.topLevel := by
    induction ms with
    | nil => exact fun s => rfl
    | cons m ms ih =>
      obtain ⟨hm, hms⟩ := List.forall_mem_cons.mp h
      intro s
      rw [List.foldl_cons, ih hms, topLevel_add, if_pos hm, List.map_cons, List.foldl_cons]
  exact hall empty

theorem mem_referenced_ofMentions {env : Environment} {ms : List Mention} {t : String} :
    t ∈ (ofMentions env ms).referenced ↔ ∃ m ∈ ms, env.resolve m.table.text = t := by
  rw [referenced_ofMentions, mem_foldl_appendNew, or_iff_right List.not_mem_nil, List.mem_map]

theorem Grounded.sources_mem {s : Scope} (h : s.Grounded) : ∀ t ∈ s.sources, t ∈ s.referenced := by
  unfold sources
  split
  · exact fun t ht => ht
  · exact h.topLevel_mem

end Scope

/-! ## Lineage -/

section Lineage
variable {env : Environment} {scope : Scope}

theorem table_mem_of_sourceOf (h : scope.Grounded) {calculated : Bool} {r : ColumnRef} {s : TableColumn}
    (hs : sourceOf? scope calculated r = some s) : s.table ∈ scope.referenced := by
  unfold sourceOf? at hs
  split at hs
  · next q _ =>
    obtain ⟨t, ht, rfl⟩ := Option.map_eq_some_iff.mp hs
    exact h.resolve_mem q t ht
  · obtain ⟨t, ht, rfl⟩ := Option.map_eq_some_iff.mp hs
    unfold bareSource? at ht
    split at ht
    · exact h.sources_mem t (List.mem_of_head? ht)
    · cases ht

theorem mem_of_mem_starTables (h : scope.Grounded) {qualifier : Option String} :
    ∀ t ∈ Projection.starTables scope qualifier, t ∈ scope.referenced := by
  intro t ht
  unfold Projection.starTables at ht
  split at ht
  · next q => exact h.resolve_mem q t (Option.mem_toList.mp ht)
  · exact h.sources_mem t ht

namespace Projection

/-- What is so of a projection without items, and stays so with every column and table that is added, is so of all
items of a body together. -/
theorem read_induction {P : Projection → Prop} (hempty : P empty) (hstar : ∀ p, P p → P p.addStarColumn)
    (htable : ∀ p, P p → ∀ qualifier, ∀ t ∈ starTables scope qualifier, P (p.addTable env t))
    (halias : ∀ p as, P p → P { p with aliases := as })
    (hexpr : ∀ p alias? body, P p → P (p.addExpr env scope alias? body)) (ts : List Token) (select : Nat) :
    P (read env scope ts select) := by
  apply List.foldlRecOn (motive := P) _ _ hempty
  intro p hp s _
  unfold addItem
  split
  · next qualifier _ =>
    unfold addStar
    dsimp only
    split
    · exact hstar p hp
    · apply List.foldlRecOn (motive := P) _ _ hp
      exact fun p hp t ht => htable p hp qualifier t ht
  · refine hexpr _ _ _ ?_
    split
    · exact halias p _ hp
    · exact hp

/-- Every column of a projection is one that a source has, or a calculated one. -/
theorem forall_columns_read {Q : Column → Prop} (hmapped : ∀ name, Q (.mapped name))
    (hcalculated : ∀ name, Q (.calculated name)) (ts : List Token) (select : Nat) :
    ∀ c ∈ (read env scope ts select).columns, Q c := by
  have hstar : ∀ p : Projection, (∀ c ∈ p.columns, Q c) → ∀ c ∈ p.addStarColumn.columns, Q c := by
    intro p hp
    unfold addStarColumn
    split
    · exact hp
    · exact List.forall_mem_append.mpr ⟨hp, List.forall_mem_singleton.mpr (hmapped _)⟩
  refine read_induction (P := fun p => ∀ c ∈ p.columns, Q c) (fun c hc => nomatch hc) hstar (fun p hp _ t _ => ?_)
    (fun p as hp => hp) (fun p alias? body hp => ?_) ts select
  · unfold addTable
    split
    · refine List.forall_mem_append.mpr ⟨hp, fun c hc => ?_⟩
      obtain ⟨c, -, rfl⟩ := List.mem_map.mp hc
      exact hmapped c.name
    · exact hstar p hp
  · unfold addExpr
    dsimp only
    split
    · exact hp
    · refine List.forall_mem_append.mpr ⟨hp, List.forall_mem_singleton.mpr ?_⟩
      split
      · exact hcalculated _
      · exact hmapped _

def Sourced (scope : Scope) (p : Projection) : Prop :=
  ∀ r ∈ p.lineage, r.sourceTable ∈ scope.referenced

theorem lineage_addStarColumn (p : Projection) : p.addStarColumn.lineage = p.lineage := by
  unfold addStarColumn
  split <;> rfl

theorem Sourced.addTable {p : Projection} (hp : p.Sourced scope) {table : String}
    (ht : table ∈ scope.referenced) : (p.addTable env table).Sourced scope := by
  intro r hr
  unfold Projection.addTable at hr
  split at hr
  · rcases List.mem_append.mp hr with hr | hr
    · exact hp r hr
    · obtain ⟨c, -, rfl⟩ := List.mem_map.mp hr
      exact ht
  · simp only [lineage_addStarColumn] at hr
    rcases List.mem_append.mp hr with hr | hr
    · exact hp r hr
    · rw [List.mem_singleton.mp hr]
      exact ht

theorem Sourced.addExpr (h : scope.Grounded) {p : Projection} (hp : p.Sourced scope) (alias? : Option String)
    (body : List Token) : (p.addExpr env scope alias? body).Sourced scope := by
  intro r hr
  rw [Projection.addExpr] at hr
  dsimp only at hr
  split at hr
  · exact hp r hr
  · rcases List.mem_append.mp hr with hr | hr
    · exact hp r hr
    · obtain ⟨s, hs, rfl⟩ := List.mem_map.mp hr
      rw [mem_foldl_appendNew, or_iff_right List.not_mem_nil] at hs
      obtain ⟨c, -, hc⟩ := List.mem_filterMap.mp hs
      exact table_mem_of_sourceOf h hc

theorem sourced_read (h : scope.Grounded) (ts : List Token) (select : Nat) :
    (read env scope ts select).Sourced scope := by
  refine read_induction (P := Sourced scope) (fun r hr => ?_) (fun p hp r hr => ?_)
    (fun p hp _ t ht => hp.addTable (mem_of_mem_starTables h t ht)) (fun p as hp => hp)
    (fun p alias? body hp => hp.addExpr h alias? body) ts select
  · cases hr
  · rw [lineage_addStarColumn] at hr
    exact hp r hr

end Projection
end Lineage

/-! ## The references of a body -/

def mentions (ts : List Token) : List Mention :=
  match select? ts with
  | some select => keywordMentions ts (Token.depthAt ts select) ++ listMentions ts select
  | none => keywordMentions ts 0

theorem scopeOf_eq (env : Environment) (ts : List Token) : scopeOf env ts = .ofMentions env (mentions ts) := by
  unfold scopeOf mentions
  cases select? ts <;> rfl

theorem grounded_scopeOf (env : Environment) (ts : List Token) : (scopeOf env ts).Grounded := by
  rw [scopeOf_eq]
  exact Scope.grounded_ofMentions env _

theorem sourceTable_mem_read {env : Environment} {ts : List Token} {name : String} {kind : Definition.Kind} :
    ∀ r ∈ (read env ts name kind).definition.lineage, r.sourceTable ∈ (scopeOf env ts).referenced := by
  unfold read
  split
  · exact Projection.sourced_read (grounded_scopeOf env ts) ts _
  · intro r hr
    cases hr

theorem references_read (env : Environment) (ts : List Token) (name : String) (kind : Definition.Kind) :
    (read env ts name kind).definition.references = (scopeOf env ts).referenced.map Reference.uses := by
  unfold read
  split <;> rfl

/-- A body refers to the tables that it names, under the names that they have there, and to nothing
else. -/
theorem mem_referenced_read {env : Environment} {ts : List Token} {name : String} {kind : Definition.Kind}
    {n : String} :
    n ∈ (read env ts name kind).definition.referenced ↔ ∃ m ∈ mentions ts, env.resolve m.table.text = n := by
  rw [← Scope.mem_referenced_ofMentions, ← scopeOf_eq, Definition.referenced, List.mem_append, references_read]
  constructor
  · rintro (hn | hn)
    · rw [List.map_map] at hn
      obtain ⟨t, ht, rfl⟩ := List.mem_map.mp hn
      exact ht
    · obtain ⟨r, hr, rfl⟩ := List.mem_map.mp hn
      exact sourceTable_mem_read r hr
  · intro hn
    rw [List.map_map]
    exact .inl (List.mem_map.mpr ⟨n, hn, rfl⟩)

end SqlLineage.Select
