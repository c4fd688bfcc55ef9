import SqlLineage.Proofs.Frame.Registry
import SqlLineage.Proofs.Registry.Usage
import SqlLineage.Proofs.Select.Observed

/-! # Reading a query body next to foreign definitions

A body is read twice, with and without definitions of foreign names. What it says is the same if it uses no column
of a foreign table, apart from how it spells a foreign name.

* `Scope.Beside`: the two scopes of a body. They lead to the same tables, and to foreign ones at the same places.
* `Intrudes`: a column of a foreign table is observed.
* `Projection.Beside`: what the items of a body say, read in both ways. One item more keeps it so, or intrudes.
* `Select.beside_read`: the same for a whole body. -/

namespace SqlLineage
open SqlLineage.Text
set_option autoImplicit false

variable {ks : List String}

/-! ## Names and lists of names -/

/-- The same name; only a foreign one may be spelled in another case. -/
def Twin (ks : List String) (t t' : String) : Prop :=
  upper t' = upper t ∧ (t' = t ∨ Foreign ks t)

/-- The same names, or there is a foreign one in both lists. -/
def Twins (ks : List String) (l l' : List String) : Prop :=
  (l' = l ∧ ∀ t ∈ l, ¬ Foreign ks t) ∨ (∃ t ∈ l, Foreign ks t) ∧ ∃ t ∈ l', Foreign ks t

theorem Twin.foreign {t t' : String} (h : Twin ks t t') : Foreign ks t' ↔ Foreign ks t := foreign_congr h.1

theorem Twin.eq {t t' : String} (h : Twin ks t t') (hn : ¬ Foreign ks t) : t' = t := h.2.resolve_right hn

theorem Twins.isEmpty_eq {l l' : List String} (h : Twins ks l l') : l'.isEmpty = l.isEmpty := by
  rcases h with ⟨rfl, -⟩ | ⟨⟨t, ht, -⟩, t', ht', -⟩
  · rfl
  · rw [List.isEmpty_eq_false_iff.mpr (List.ne_nil_of_mem ht), List.isEmpty_eq_false_iff.mpr (List.ne_nil_of_mem ht')]

theorem Twins.eq {l l' : List String} (h : Twins ks l l') (hn : ∀ t ∈ l, ¬ Foreign ks t) : l' = l := by
  rcases h with ⟨heq, -⟩ | ⟨⟨t, ht, hforeign⟩, -⟩
  · exact heq
  · exact absurd hforeign (hn t ht)

theorem Twins.appendNew {l l' : List String} (h : Twins ks l l') {t t' : String} (ht : Twin ks t t') :
    Twins ks (appendNew l t) (appendNew l' t') := by
  by_cases hforeign : Foreign ks t
  · exact .inr ⟨⟨t, mem_appendNew.mpr (.inr rfl), hforeign⟩, t', mem_appendNew.mpr (.inr rfl), ht.foreign.mpr hforeign⟩
  · obtain rfl := ht.eq hforeign
    rcases h with ⟨rfl, hn⟩ | ⟨⟨x, hx, hxf⟩, y, hy, hyf⟩
    · refine .inl ⟨rfl, fun x hx => ?_⟩
      rcases mem_appendNew.mp hx with hx | rfl
      · exact hn x hx
      · exact hforeign
    · exact .inr ⟨⟨x, mem_appendNew.mpr (.inl hx), hxf⟩, y, mem_appendNew.mpr (.inl hy), hyf⟩

theorem head?_foldl_appendNew {α : Type} [DecidableEq α] (xs : List α) : (xs.foldl appendNew []).head? = xs.head? := by
  have hall : ∀ (xs ys : List α) (y : α), (xs.foldl appendNew (y :: ys)).head? = some y := by
    intro xs
    induction xs with
    | nil => exact fun ys y => rfl
    | cons x xs ih =>
      intro ys y
      rw [List.foldl_cons, SqlLineage.appendNew]
      split
      · exact ih ys y
      · exact ih (ys ++ [x]) y
  cases xs with
  | nil => rfl
  | cons x xs => exact hall xs [] x

/-! ## Environments -/

/-- Two environments in one statement; the second one also has the foreign definitions `front`. -/
structure Environment.Beside (ks : List String) (front : List Definition) (env env' : Environment) : Prop where
  registry : Registry.Beside ks front env.registry env'.registry
  clear : env.registry.Clear ks
  ctes : env'.ctes = env.ctes
  filed : ∀ v ∈ env.ctes.names.values, ¬ Foreign ks v

namespace Environment.Beside
variable {front : List Definition} {env env' : Environment}

theorem twin_resolve (h : env.Beside ks front env') (n : String) : Twin ks (env.resolve n) (env'.resolve n) := by
  unfold resolve
  rw [h.ctes]
  cases env.ctes.filed? n with
  | some v => exact ⟨rfl, .inl rfl⟩
  | none =>
    have hupper : upper (env'.registry.canonicalName n) = upper (env.registry.canonicalName n) := by
      rw [h.registry.coherent'.upper_canonicalName, h.registry.coherent.upper_canonicalName]
    refine ⟨hupper, ?_⟩
    by_cases hn : Foreign ks n
    · exact .inr ((foreign_congr (h.registry.coherent.upper_canonicalName n)).mpr hn)
    · exact .inl (h.registry.canonicalName_eq hn)

theorem observed_eq (h : env.Beside ks front env') (t c : String) : env'.observed t c = env.observed t c := by
  rw [observed, observed, h.ctes]

/-- The use of a foreign table is always noted. -/
theorem observed_of_foreign (h : env.Beside ks front env') {t : String} (ht : Foreign ks t) (c : String) :
    env.observed t c = [⟨t, c⟩] := by
  rw [observed, if_neg]
  intro hfiles
  obtain ⟨v, hv, hsame⟩ := List.any_eq_true.mp hfiles
  exact h.filed v hv ((foreign_congr (upper_eq_of_sameFold hsame)).mpr ht)

end Environment.Beside

namespace Select

/-! ## Scopes -/

/-- The scopes of one body in two environments. -/
structure Scope.Beside (ks : List String) (s s' : Scope) : Prop where
  resolve : ∀ q, Option.Rel (Twin ks) (s.resolve? q) (s'.resolve? q)
  referenced : Twins ks s.referenced s'.referenced
  topLevel : Twins ks s.topLevel s'.topLevel

namespace Scope
variable {s s' : Scope}

theorem Beside.add (h : s.Beside ks s') {t t' : String} (ht : Twin ks t t') (m : Mention) :
    (s.add t m).Beside ks (s'.add t' m) where
  resolve := by
    intro q
    rw [resolve?_add, resolve?_add]
    have hnames : (namesOf t' m.table).map upper = (namesOf t m.table).map upper := by
      simp only [namesOf, List.map_append, List.map_cons, ht.1]
    rw [hnames]
    split
    · exact .some ht
    · exact h.resolve q
  referenced := by
    rw [referenced_add, referenced_add]
    exact h.referenced.appendNew ht
  topLevel := by
    rw [topLevel_add, topLevel_add]
    split
    · exact h.topLevel.appendNew ht
    · exact h.topLevel

theorem beside_scopeOf {front : List Definition} {env env' : Environment} (h : env.Beside ks front env')
    (ts : List Token) : (scopeOf env ts).Beside ks (scopeOf env' ts) := by
  have hempty : Beside ks empty empty := ⟨fun q => .none, .inl ⟨rfl, by simp [empty]⟩, .inl ⟨rfl, by simp [empty]⟩⟩
  rw [scopeOf_eq, scopeOf_eq]
  exact List.foldl_rel (r := Beside ks) hempty fun m _ c c' hc => hc.add (h.twin_resolve _) m

theorem Beside.isSome_resolve (h : s.Beside ks s') (q : String) : (s'.resolve? q).isSome = (s.resolve? q).isSome := by
  have hrel := h.resolve q
  generalize s.resolve? q = t?, s'.resolve? q = t'? at hrel
  cases hrel <;> rfl

theorem Beside.isIgnored_eq (h : s.Beside ks s') : s'.isIgnored = s.isIgnored := by
  funext w
  rw [isIgnored, isIgnored, h.isSome_resolve]

theorem Beside.resolved (h : s.Beside ks s') (q : String) : Twins ks (s.resolve? q).toList (s'.resolve? q).toList := by
  have hrel := h.resolve q
  generalize s.resolve? q = t?, s'.resolve? q = t'? at hrel
  cases hrel with
  | none => exact .inl ⟨rfl, by simp⟩
  | @some t t' htwin =>
    by_cases hforeign : Foreign ks t
    · exact .inr ⟨⟨t, by simp, hforeign⟩, t', by simp, htwin.foreign.mpr hforeign⟩
    · exact .inl ⟨by rw [htwin.eq hforeign], by simpa using hforeign⟩

theorem Beside.sources (h : s.Beside ks s') : Twins ks s.sources s'.sources := by
  unfold Scope.sources
  rw [h.topLevel.isEmpty_eq]
  split
  · exact h.referenced
  · exact h.topLevel

/-- A scope without foreign tables leads to the same tables. -/
theorem Beside.resolve?_eq (h : s.Beside ks s') (hground : s.Grounded) (hn : ∀ t ∈ s.referenced, ¬ Foreign ks t)
    (q : String) : s'.resolve? q = s.resolve? q := by
  have hrel := h.resolve q
  cases hs : s.resolve? q with
  | none =>
    rw [hs] at hrel
    generalize s'.resolve? q = t'? at hrel
    cases hrel
    rfl
  | some t =>
    rw [hs] at hrel
    generalize s'.resolve? q = t'? at hrel
    cases hrel with
    | some htwin => rw [htwin.eq (hn t (hground.resolve_mem q t hs))]

theorem Beside.sources_eq (h : s.Beside ks s') (hground : s.Grounded) (hn : ∀ t ∈ s.referenced, ¬ Foreign ks t) :
    s'.sources = s.sources :=
  h.sources.eq fun t ht => hn t (hground.sources_mem t ht)

end Scope

/-! ## Names that a scope ignores -/

section Ignored
variable {s s' : Scope} (h : s'.isIgnored = s.isIgnored)
include h

theorem ColumnRef.collectFrom_congr (i : Nat) (previous : Option Token) (ts : List Token) :
    collectFrom s' i previous ts = collectFrom s i previous ts := by
  have hname : ∀ start first n, ofName? s' start first n = ofName? s start first n := by
    intro start first n
    rw [ofName?, ofName?, h]
  fun_induction collectFrom s i previous ts with
  | case1 i previous => rw [collectFrom]
  | case2 i previous t ts hprevious ih => rw [collectFrom, if_pos hprevious, ih]
  | case3 i previous t ts hprevious hnone ih => rw [collectFrom, if_neg hprevious, hnone, ih]
  | case4 i previous t ts hprevious n hsome further rest ih =>
    rw [collectFrom, if_neg hprevious, hsome]
    dsimp only
    rw [hname, ih]

theorem ColumnRef.collect_congr (ts : List Token) : collect s' ts = collect s ts :=
  collectFrom_congr h 0 none ts

theorem splitAlias_congr (item : List Token) : splitAlias s' item = splitAlias s item := by
  unfold splitAlias
  rw [h]

theorem countingRefs_congr (body : List Token) : countingRefs s' body = countingRefs s body := by
  unfold countingRefs
  rw [ColumnRef.collect_congr h]

end Ignored

/-! ## Observations -/

/-- The observations that say something. -/
def noted (os : List TableColumn) : List TableColumn :=
  os.filter (·.column ≠ "")

/-- A column of a foreign table is observed. -/
def Intrudes (ks : List String) (os : List TableColumn) : Prop :=
  ∃ o ∈ os, o.column ≠ "" ∧ Foreign ks o.table

theorem Intrudes.mono {os os' : List TableColumn} (h : Intrudes ks os) (hsub : os ⊆ os') : Intrudes ks os' := by
  obtain ⟨o, ho, hforeign⟩ := h
  exact ⟨o, hsub ho, hforeign⟩

theorem noted_append (os os' : List TableColumn) : noted (os ++ os') = noted os ++ noted os' :=
  List.filter_append ..

theorem noted_flatMap {α : Type} {f g : α → List TableColumn} {l : List α}
    (h : ∀ a ∈ l, noted (g a) = noted (f a)) : noted (l.flatMap g) = noted (l.flatMap f) := by
  rw [noted, noted, List.filter_flatMap, List.filter_flatMap]
  exact List.flatMap_congr h

section Reading
variable {front : List Definition} {env env' : Environment} (h : env.Beside ks front env') {s s' : Scope}
    (hs : s.Beside ks s')
include h hs

theorem noted_observe (r : ColumnRef) :
    Intrudes ks (observe env s r) ∨ noted (observe env' s' r) = noted (observe env s r) := by
  have hempty : ∀ (e : Environment) (x : Scope), r.column = "" → noted (observe e x r) = [] := by
    intro e x hc
    rw [noted, List.filter_eq_nil_iff]
    intro o ho
    obtain ⟨t, -, ho⟩ := List.mem_flatMap.mp ho
    obtain ⟨rfl, -⟩ := Environment.mem_observed ho
    simpa using hc
  by_cases hc : r.column = ""
  · exact .inr ((hempty env' s' hc).trans (hempty env s hc).symm)
  · have htables : Twins ks (usedTables s r) (usedTables s' r) := by
      unfold usedTables
      cases r.qualifier with
      | none => exact hs.referenced
      | some q => exact hs.resolved q
    rcases htables with ⟨heq, -⟩ | ⟨⟨t, ht, hforeign⟩, -⟩
    · refine .inr ?_
      rw [observe, observe, heq]
      exact noted_flatMap fun t _ => by rw [h.observed_eq]
    · refine .inl ⟨⟨t, r.column⟩, List.mem_flatMap.mpr ⟨t, ht, ?_⟩, hc, hforeign⟩
      rw [h.observed_of_foreign hforeign]
      exact List.mem_singleton_self _

theorem noted_observeAll (rs : List ColumnRef) :
    Intrudes ks (rs.flatMap (observe env s)) ∨
      noted (rs.flatMap (observe env' s')) = noted (rs.flatMap (observe env s)) := by
  by_cases hin : ∃ r ∈ rs, Intrudes ks (observe env s r)
  · obtain ⟨r, hr, hintrudes⟩ := hin
    exact .inl (hintrudes.mono fun o ho => List.mem_flatMap.mpr ⟨r, hr, ho⟩)
  · refine .inr (noted_flatMap fun r hr => ?_)
    exact (noted_observe h hs r).resolve_left fun hintrudes => hin ⟨r, hr, hintrudes⟩

end Reading

/-! ## Projections -/

namespace Projection

/-- What the same items say, read in two environments. The lineage is the same if no table in scope is foreign. -/
structure Beside (ks : List String) (s : Scope) (p p' : Projection) : Prop where
  columns : p'.columns = p.columns
  aliases : p'.aliases = p.aliases
  observed : noted p'.observed = noted p.observed
  lineage : (∀ t ∈ s.referenced, ¬ Foreign ks t) → p'.lineage = p.lineage

/-- The items use a column of a foreign table, or they say the same. -/
def Agree (ks : List String) (s : Scope) (p p' : Projection) : Prop :=
  Intrudes ks p.observed ∨ Beside ks s p p'

variable {front : List Definition} {env env' : Environment} {s s' : Scope}

theorem Beside.addStarColumn {p p' : Projection} (hp : Beside ks s p p') :
    Beside ks s p.addStarColumn p'.addStarColumn where
  columns := by
    unfold Projection.addStarColumn
    rw [hp.columns]
    split
    · exact hp.columns
    · rfl
  aliases := by
    unfold Projection.addStarColumn
    split <;> split <;> exact hp.aliases
  observed := by
    rw [observed_addStarColumn, observed_addStarColumn]
    exact hp.observed
  lineage := by
    rw [lineage_addStarColumn, lineage_addStarColumn]
    exact hp.lineage

theorem observed_subset_addTable (p : Projection) (t : String) : p.observed ⊆ (p.addTable env t).observed := by
  unfold addTable
  split
  · exact List.Subset.refl _
  · dsimp only
    rw [observed_addStarColumn]
    exact List.subset_append_left _ _

theorem observed_subset_foldl_addTable (ts : List String) (p : Projection) :
    p.observed ⊆ (ts.foldl (addTable env) p).observed := by
  apply List.foldlRecOn (motive := fun q : Projection => p.observed ⊆ q.observed) _ _ (List.Subset.refl _)
  exact fun q hq t _ => List.Subset.trans hq (q.observed_subset_addTable t)

section Steps
variable (h : env.Beside ks front env')
include h

/-- A table of the script's own adds the same. -/
theorem Beside.addTable {p p' : Projection} (hp : Beside ks s p p') {t : String} (ht : ¬ Foreign ks t) :
    Beside ks s (p.addTable env t) (p'.addTable env' t) := by
  have hrel := h.registry.rel_lookup ht
  have hschema : Option.Rel (Definition.Alike ks) ((env.registry.lookup t).filter Definition.hasKnownSchema)
      ((env'.registry.lookup t).filter Definition.hasKnownSchema) := by
    generalize env.registry.lookup t = d?, env'.registry.lookup t = d'? at hrel
    cases hrel with
    | none => exact .none
    | @some d d' halike =>
      have hsame : d'.hasKnownSchema = d.hasKnownSchema := by
        rw [Definition.hasKnownSchema, Definition.hasKnownSchema, halike.columns]
      rw [Option.filter_some, Option.filter_some, hsame]
      split
      · exact .some halike
      · exact .none
  unfold Projection.addTable
  generalize (env.registry.lookup t).filter Definition.hasKnownSchema = d?,
    (env'.registry.lookup t).filter Definition.hasKnownSchema = d'? at hschema
  cases hschema with
  | some halike =>
    refine ⟨?_, hp.aliases, hp.observed, fun hn => ?_⟩
    · dsimp only
      rw [halike.columns, hp.columns]
    · dsimp only
      rw [halike.columns, hp.lineage hn]
  | none =>
    have hstar := hp.addStarColumn
    refine ⟨hstar.columns, hstar.aliases, ?_, fun hn => ?_⟩
    · dsimp only
      rw [noted_append, noted_append, hstar.observed, h.observed_eq]
    · dsimp only
      rw [hstar.lineage hn]

/-- All columns of a foreign table count as used. -/
theorem intrudes_addTable (p : Projection) {t : String} (ht : Foreign ks t) :
    Intrudes ks (p.addTable env t).observed := by
  have hnone : env.registry.lookup t = none := by
    cases hl : env.registry.lookup t with
    | none => rfl
    | some d => exact absurd ht (h.clear t (by rw [Registry.defines, hl]; rfl))
  unfold addTable
  rw [hnone]
  refine ⟨⟨t, Column.starName⟩, ?_, by simp [Column.starName], ht⟩
  dsimp only
  rw [h.observed_of_foreign ht]
  exact List.mem_append_right _ (List.mem_singleton_self _)

theorem Beside.addTables {p p' : Projection} (hp : Beside ks s p p') {ts ts' : List String} (ht : Twins ks ts ts') :
    Agree ks s (ts.foldl (Projection.addTable env) p) (ts'.foldl (Projection.addTable env') p') := by
  rcases ht with ⟨rfl, hn⟩ | ⟨⟨t, ht, hforeign⟩, -⟩
  · exact .inr (List.foldl_rel (r := Beside ks s) hp fun t ht c c' hc => hc.addTable h (hn t ht))
  · obtain ⟨before, after, rfl⟩ := List.append_of_mem ht
    rw [List.foldl_append, List.foldl_cons]
    exact .inl ((intrudes_addTable h _ hforeign).mono (observed_subset_foldl_addTable after _))

variable (hs : s.Beside ks s') (hground : s.Grounded)
include hs

omit h in
theorem twins_starTables (qualifier : Option String) : Twins ks (starTables s qualifier) (starTables s' qualifier) := by
  unfold starTables
  cases qualifier with
  | none => exact hs.sources
  | some q => exact hs.resolved q

theorem Beside.addStar {p p' : Projection} (hp : Beside ks s p p') (qualifier : Option String) :
    Agree ks s (p.addStar env s qualifier) (p'.addStar env' s' qualifier) := by
  have htables := twins_starTables hs qualifier
  rw [Projection.addStar, Projection.addStar, htables.isEmpty_eq]
  split
  · exact .inr hp.addStarColumn
  · exact hp.addTables h htables

omit h in
/-- The column that an expression takes first has the same name in both scopes. -/
theorem head?_sources (calculated : Bool) (hc : calculated = true) (refs : List ColumnRef) :
    ((refs.filterMap (sourceOf? s' calculated)).foldl appendNew []).head?.map TableColumn.column =
      ((refs.filterMap (sourceOf? s calculated)).foldl appendNew []).head?.map TableColumn.column := by
  have hcolumn : ∀ r, (sourceOf? s' calculated r).map TableColumn.column =
      (sourceOf? s calculated r).map TableColumn.column := by
    intro r
    have htable : ∀ t? t'? : Option String, t'?.isSome = t?.isSome →
        (t'?.map fun t => (⟨t, r.column⟩ : TableColumn)).map TableColumn.column =
          (t?.map fun t => (⟨t, r.column⟩ : TableColumn)).map TableColumn.column := by
      intro t? t'? hsome
      cases t? <;> cases t'? <;> first | rfl | cases hsome
    unfold sourceOf?
    cases r.qualifier with
    | some q => exact htable _ _ (hs.isSome_resolve q)
    | none =>
      refine htable _ _ ?_
      have hempty := hs.sources.isEmpty_eq
      rw [bareSource?, bareSource?, hc, Bool.true_or, Bool.true_or, if_pos rfl, if_pos rfl]
      generalize s.sources = l, s'.sources = l' at hempty
      cases l <;> cases l' <;> first | rfl | cases hempty
  have hheads : ∀ l l' : List TableColumn, l'.map TableColumn.column = l.map TableColumn.column →
      l'.head?.map TableColumn.column = l.head?.map TableColumn.column := by
    intro l l' hmap
    rw [← List.head?_map, ← List.head?_map, hmap]
  rw [head?_foldl_appendNew, head?_foldl_appendNew]
  apply hheads
  rw [List.map_filterMap, List.map_filterMap]
  exact List.filterMap_congr fun r _ => hcolumn r

include hground

omit h in
theorem sourceOf?_eq (hn : ∀ t ∈ s.referenced, ¬ Foreign ks t) (calculated : Bool) (r : ColumnRef) :
    sourceOf? s' calculated r = sourceOf? s calculated r := by
  unfold sourceOf?
  cases r.qualifier with
  | some q =>
    dsimp only
    rw [hs.resolve?_eq hground hn]
  | none =>
    dsimp only
    rw [bareSource?, bareSource?, hs.sources_eq hground hn]

theorem Beside.addExpr {p p' : Projection} (hp : Beside ks s p p') (alias? : Option String) (body : List Token) :
    Agree ks s (p.addExpr env s alias? body) (p'.addExpr env' s' alias? body) := by
  have hrefs := countingRefs_congr hs.isIgnored_eq body
  rcases noted_observeAll h hs (countingRefs s body) with hintrudes | hobserved
  · refine .inl (hintrudes.mono ?_)
    rw [Projection.addExpr]
    dsimp only
    split <;> exact List.subset_append_right _ _
  · have hnoted : noted (p'.observed ++ (countingRefs s body).flatMap (observe env' s')) =
        noted (p.observed ++ (countingRefs s body).flatMap (observe env s)) := by
      rw [noted_append, noted_append, hp.observed, hobserved]
    -- an expression is named by its alias, or by the first column that it takes, which are the same
    have hname : (if isCalculation body then
          (((countingRefs s body).filterMap (sourceOf? s' (isCalculation body))).foldl appendNew []).head?.map
            TableColumn.column
        else (countingRefs s body).head?.map ColumnRef.column) =
        if isCalculation body then
          (((countingRefs s body).filterMap (sourceOf? s (isCalculation body))).foldl appendNew []).head?.map
            TableColumn.column
        else (countingRefs s body).head?.map ColumnRef.column := by
      split
      · next hc => exact head?_sources hs _ hc _
      · rfl
    refine .inr ?_
    unfold Projection.addExpr
    rw [hrefs]
    dsimp only
    rw [hname]
    split
    · exact ⟨hp.columns, hp.aliases, hnoted, hp.lineage⟩
    · refine ⟨by rw [hp.columns], hp.aliases, hnoted, fun hn => ?_⟩
      have hsources : (countingRefs s body).filterMap (sourceOf? s' (isCalculation body)) =
          (countingRefs s body).filterMap (sourceOf? s (isCalculation body)) :=
        List.filterMap_congr fun r _ => sourceOf?_eq hs hground hn _ r
      rw [hp.lineage hn, hsources]

theorem Beside.addItem {p p' : Projection} (hp : Beside ks s p p') (last : Nat) (item : List Token) :
    Agree ks s (p.addItem env s last item) (p'.addItem env' s' last item) := by
  unfold Projection.addItem
  rw [splitAlias_congr hs.isIgnored_eq]
  split
  · exact hp.addStar h hs _
  · refine Beside.addExpr h hs hground ?_ _ _
    split
    · exact ⟨hp.columns, by rw [hp.aliases], hp.observed, hp.lineage⟩
    · exact hp

end Steps

theorem observed_subset_addItem (p : Projection) (last : Nat) (item : List Token) :
    p.observed ⊆ (p.addItem env s last item).observed := by
  have hexpr : ∀ (q : Projection) (alias? : Option String) (body : List Token),
      q.observed ⊆ (q.addExpr env s alias? body).observed := by
    intro q alias? body
    rw [addExpr]
    dsimp only
    split <;> exact List.subset_append_left _ _
  unfold addItem
  split
  · rw [addStar]
    split
    · rw [observed_addStarColumn]
      exact List.Subset.refl _
    · exact observed_subset_foldl_addTable _ p
  · dsimp only
    split
    · exact hexpr { p with aliases := p.aliases ++ [last] } _ _
    · exact hexpr p _ _

theorem agree_read (h : env.Beside ks front env') (hs : s.Beside ks s') (hground : s.Grounded) (ts : List Token)
    (select : Nat) : Agree ks s (read env s ts select) (read env' s' ts select) := by
  have hempty : Beside ks s empty empty := ⟨rfl, rfl, rfl, fun _ => rfl⟩
  refine List.foldl_rel (r := Agree ks s) (.inr hempty) fun span _ p p' hp => ?_
  rcases hp with hintrudes | hp
  · exact .inl (hintrudes.mono (p.observed_subset_addItem _ _))
  · exact hp.addItem h hs hground _ _

end Projection

/-! ## Whole bodies -/

section Bodies
variable {front : List Definition} {env env' : Environment} (h : env.Beside ks front env')
include h

theorem noted_bodyUsage {s s' : Scope} (hs : s.Beside ks s') (ts : List Token) (aliases : List Nat) :
    Intrudes ks (bodyUsage env s ts aliases) ∨
      noted (bodyUsage env' s' ts aliases) = noted (bodyUsage env s ts aliases) := by
  unfold bodyUsage
  rw [ColumnRef.collect_congr hs.isIgnored_eq]
  exact noted_observeAll h hs _

/-- A body uses a column of a foreign table, or it says the same in both environments. -/
theorem beside_read (ts : List Token) (name : String) (kind : Definition.Kind) :
    Intrudes ks (read env ts name kind).observed ∨
      Definition.Alike ks (read env ts name kind).definition (read env' ts name kind).definition ∧
      noted (read env' ts name kind).observed = noted (read env ts name kind).observed ∧
      (read env' ts name kind).notices = (read env ts name kind).notices := by
  have hs := Scope.beside_scopeOf h ts
  have hground := grounded_scopeOf env ts
  -- a scope with a foreign table is one of its references
  have hreferenced : (∀ t ∈ (scopeOf env ts).referenced, ¬ Foreign ks t) ∨
      ∃ n ∈ (read env ts name kind).definition.referenced, Foreign ks n := by
    by_cases hforeign : ∃ t ∈ (scopeOf env ts).referenced, Foreign ks t
    · obtain ⟨t, ht, htf⟩ := hforeign
      refine .inr ⟨t, ?_, htf⟩
      rw [mem_referenced_read, ← Scope.mem_referenced_ofMentions, ← scopeOf_eq]
      exact ht
    · exact .inl fun t ht htf => hforeign ⟨t, ht, htf⟩
  unfold read at hreferenced ⊢
  cases hselect : select? ts with
  | none =>
    rw [hselect] at hreferenced
    refine .inr ⟨⟨rfl, rfl, rfl, hreferenced.imp_left fun hn => ?_⟩, rfl, rfl⟩
    dsimp only
    rw [hs.referenced.eq hn]
  | some select =>
    rw [hselect] at hreferenced
    dsimp only at hreferenced ⊢
    rcases Projection.agree_read h hs hground ts select with hintrudes | hp
    · exact .inl (hintrudes.mono (List.subset_append_left _ _))
    · rw [hp.aliases]
      rcases noted_bodyUsage h hs ts (Projection.read env (scopeOf env ts) ts select).aliases with hintrudes | husage
      · exact .inl (hintrudes.mono (List.subset_append_right _ _))
      · refine .inr ⟨⟨rfl, rfl, by rw [hp.columns], hreferenced.imp_left fun hn => ?_⟩, ?_, rfl⟩
        · rw [hp.columns, hs.referenced.eq hn, hp.lineage hn]
        · rw [noted_append, noted_append, hp.observed, husage]

end Bodies
end Select
end SqlLineage
