import SqlLineage.Proofs.Script.StubColumns
import SqlLineage.Proofs.Script.Visibility

/-! # Whose columns are discovered

The use of a column is not noted if a name that the statement has bound leads to its table. That is all: the use
is noted if a common table expression takes the name of the table later, or if it had it from an earlier statement.

* `Watch`: a site with what is observed there. `Script.watches` goes on with `Script.sites`, and the usage of a
  script is made of what they observe.
* `Inventory.exists_observed`: every discovered table was observed under its name.
* `Extraction.discovers_cte`: why columns of a common table expression are discovered, if they are. -/

namespace SqlLineage
open SqlLineage.Text
set_option autoImplicit false

/-! ## Sites that observe -/

/-- A site, and what is observed where its definition is read. -/
structure Watch where
  site : Site
  observed : List TableColumn

namespace Watch

/-- The definition of the site refers to whatever is observed there, and it is nothing that the statement has
bound a name to. -/
def Sound (w : Watch) : Prop :=
  ∀ o ∈ w.observed, o.table ∈ w.site.definition.referenced ∧ w.site.environment.ctes.files o.table = false

theorem sound_ofFiling (i : Nat) (f : Filing) : Sound ⟨.ofFiling i f, f.observed⟩ := by
  intro o ho
  have hread := Select.observed_read ho
  rw [← Definition.referenced_renameColumns _ f.head.columns] at hread
  exact hread

theorem sound_ofBlock (i : Nat) (r : Registry) (b : ColumnBlock) (name : String) :
    Sound ⟨.ofBlock i r (b.read name).definition, (b.read name).observed⟩ := by
  intro o ho
  have ho : o ∈ (b.read name).observed := ho
  rw [b.observed_read] at ho
  refine ⟨?_, rfl⟩
  rcases List.mem_append.mp ho with ho | ho
  · obtain ⟨r, hr, rfl⟩ := List.mem_map.mp ho
    exact List.mem_append_left _ (List.mem_map_of_mem hr)
  · obtain ⟨r, hr, rfl⟩ := List.mem_map.mp ho
    exact List.mem_append_right _ (List.mem_map_of_mem hr)

end Watch

namespace Statement

def queryWatches (i : Nat) (r : Registry) (ts : List Token) (name : String) (kind : Definition.Kind)
    (f : Definition → Definition) : List Watch :=
  let q := Query.ofTokens ts
  let seen := q.seen ⟨r, .empty⟩
  let main := Select.read seen q.mainBody name kind
  (q.filings ⟨r, .empty⟩).map (fun g => ⟨.ofFiling i g, g.observed⟩) ++
    [⟨.ofBody i seen q.mainBody (f main.definition), main.observed⟩]

/-- The sites of statement `i`, which begins with the registry `r`, and what they observe. -/
def watches (resultName : String) (i : Nat) (r : Registry) : Statement → List Watch
  | .createTable name (.columns block) =>
    [⟨.ofBlock i r (block.read name).definition, (block.read name).observed⟩]
  | .createTable name (.query ts) => queryWatches i r ts name .table id
  | .createTable name .empty => [⟨.ofBlock i r (.bare name .table), []⟩]
  | .createView name columns ts => queryWatches i r ts name .view (·.renameColumns columns)
  | .query ts => queryWatches i r ts (r.unusedName resultName) .view id

def textWatches (resultName : String) (i : Nat) (r : Registry) (text : String) : List Watch :=
  match ofTokens? (Token.scan text) with
  | some s => s.watches resultName i r
  | none => []

section Queries
variable (i : Nat) (r : Registry) (ts : List Token) (name : String) (kind : Definition.Kind)
    (f : Definition → Definition)

theorem map_site_queryWatches : (queryWatches i r ts name kind f).map Watch.site = querySites i r ts name kind f := by
  rw [queryWatches, querySites, List.map_append, List.map_map]
  rfl

theorem observed_queryWatches : (queryWatches i r ts name kind f).flatMap Watch.observed = queryObserved r ts name kind := by
  rw [queryWatches, queryObserved, Query.observed, List.flatMap_append, List.flatMap_map, List.flatMap_singleton]

theorem sound_queryWatches (hf : ∀ d, (f d).referenced = d.referenced) :
    ∀ w ∈ queryWatches i r ts name kind f, w.Sound := by
  intro w hw
  rcases List.mem_append.mp hw with hw | hw
  · obtain ⟨g, -, rfl⟩ := List.mem_map.mp hw
    exact Watch.sound_ofFiling i g
  · rw [List.mem_singleton.mp hw]
    intro o ho
    have hread := Select.observed_read ho
    rw [← hf] at hread
    exact hread

end Queries

theorem map_site_watches (resultName : String) (i : Nat) (r : Registry) (s : Statement) :
    (s.watches resultName i r).map Watch.site = s.sites resultName i r := by
  cases s with
  | createTable name body =>
    cases body with
    | columns block => rfl
    | query ts => exact map_site_queryWatches i r ts name .table id
    | empty => rfl
  | createView name columns ts => exact map_site_queryWatches i r ts name .view (·.renameColumns columns)
  | query ts => exact map_site_queryWatches i r ts _ .view id

theorem observed_watches (resultName : String) (i : Nat) (r : Registry) (s : Statement) :
    (s.watches resultName i r).flatMap Watch.observed = s.observed resultName r := by
  cases s with
  | createTable name body =>
    cases body with
    | columns block => exact List.append_nil _
    | query ts => exact observed_queryWatches i r ts name .table id
    | empty => rfl
  | createView name columns ts => exact observed_queryWatches i r ts name .view (·.renameColumns columns)
  | query ts => exact observed_queryWatches i r ts _ .view id

theorem sound_watches (resultName : String) (i : Nat) (r : Registry) (s : Statement) :
    ∀ w ∈ s.watches resultName i r, w.Sound := by
  cases s with
  | createTable name body =>
    cases body with
    | columns block =>
      rw [watches, List.forall_mem_singleton]
      exact Watch.sound_ofBlock i r block name
    | query ts => exact sound_queryWatches i r ts name .table id fun _ => rfl
    | empty =>
      rw [watches, List.forall_mem_singleton]
      intro o ho
      cases ho
  | createView name columns ts =>
    exact sound_queryWatches i r ts name .view _ fun d => d.referenced_renameColumns columns
  | query ts => exact sound_queryWatches i r ts _ .view id fun _ => rfl

end Statement

namespace Script

/-- The sites of all statements, of which the first has the number `i` and begins with the registry `r`, and what
they observe. -/
def watches (resultName : String) (i : Nat) (r : Registry) : List String → List Watch
  | [] => []
  | text :: texts =>
    let ws := Statement.textWatches resultName i r text
    ws ++ watches resultName (i + 1) (r.fileAll (ws.map fun w => w.site.definition)) texts

/-- What is known of the watches of one text. -/
theorem textWatches_spec (resultName : String) (i : Nat) (r : Registry) (text : String) :
    (Statement.textWatches resultName i r text).map Watch.site = Statement.textSites resultName i r text ∧
    (Statement.textWatches resultName i r text).flatMap Watch.observed = Statement.textObserved resultName r text ∧
    ∀ w ∈ Statement.textWatches resultName i r text, w.Sound := by
  unfold Statement.textWatches Statement.textSites Statement.textObserved
  cases Statement.ofTokens? (Token.scan text) with
  | none => exact ⟨rfl, rfl, by simp⟩
  | some s =>
    exact ⟨s.map_site_watches resultName i r, s.observed_watches resultName i r, s.sound_watches resultName i r⟩

theorem map_site_watches (resultName : String) (i : Nat) (r : Registry) (texts : List String) :
    (watches resultName i r texts).map Watch.site = sites resultName i r texts := by
  induction texts generalizing i r with
  | nil => rfl
  | cons text texts ih =>
    obtain ⟨hsites, -⟩ := textWatches_spec resultName i r text
    have hdefinitions := congrArg (List.map Site.definition) hsites
    rw [List.map_map] at hdefinitions
    rw [watches, sites, List.map_append, ih, hsites, ← hdefinitions]
    rfl

theorem observed_watches (resultName : String) (i : Nat) (r : Registry) (texts : List String) :
    (watches resultName i r texts).flatMap Watch.observed = observed resultName r texts := by
  induction texts generalizing i r with
  | nil => rfl
  | cons text texts ih =>
    obtain ⟨hsites, hobserved, -⟩ := textWatches_spec resultName i r text
    have hdefinitions := congrArg (List.map Site.definition) hsites
    rw [List.map_map, Statement.map_definition_textSites] at hdefinitions
    rw [watches, observed, List.flatMap_append, ih, hobserved, ← hdefinitions]
    rfl

theorem sound_watches (resultName : String) (i : Nat) (r : Registry) (texts : List String) :
    ∀ w ∈ watches resultName i r texts, w.Sound := by
  induction texts generalizing i r with
  | nil =>
    intro w hw
    cases hw
  | cons text texts ih =>
    intro w hw
    rcases List.mem_append.mp hw with hw | hw
    · exact (textWatches_spec resultName i r text).2.2 w hw
    · exact ih _ _ w hw

end Script

/-! ## Discovered tables -/

namespace Inventory

/-- A table that is discovered has a column that was observed. -/
theorem exists_observed {inv : Inventory} (h : inv.registry.Coherent) {os : List TableColumn}
    (hos : inv.usage = Usage.empty.recordAll os) {k : String} (hk : k ∈ inv.finish.discovered.keys) :
    ∃ o ∈ os, upper o.table = upper k ∧ o.column ≠ "" := by
  rw [finish, usage_inferStubs, OrderedMap.mem_keys_ofList] at hk
  obtain ⟨e, he, rfl⟩ := hk
  obtain ⟨u, hu, rfl⟩ := List.mem_map.mp he
  have hkeyed : inv.usage.Keyed := hos ▸ Usage.keyed_empty.recordAll os
  have hfiled : inv.usage.tables.find? (upper u.table) = some u := by
    have hmem : u ∈ inv.usage.tables.values.filter fun s => upper s.table = upper u.table :=
      List.mem_filter.mpr ⟨hu, by simp⟩
    rw [hkeyed.filter_values] at hmem
    exact Option.mem_toList.mp hmem
  have hcolumns : inv.usage.columns? u.table = some u.columns := by
    rw [Usage.columns?, hfiled]
    rfl
  rw [hos] at hcolumns
  obtain ⟨o, ho, hname, hc⟩ := Usage.exists_of_columns? hcolumns
  exact ⟨o, ho, hname.trans ((coherent_inferStubs h).upper_canonicalName _).symm, hc⟩

end Inventory

namespace Script.Place
variable {resultName : String} {texts : List String}

/-- If a name of a site, which its statement has not bound, is that of a common table expression in the end, then
nothing has it where it is read, or the slot of that common table expression. -/
theorem find?_of_cte (p : Place .empty (sites resultName 0 .empty texts)) {n : String} {k : Nat} {C : Definition}
    (hC : (Inventory.ofStatements resultName texts).registry.slots[k]? = some C) (hcte : C.kind = .cte)
    (hname : upper C.name = upper n) :
    p.site.environment.registry.find? n = none ∨
      ∃ X, p.site.environment.registry.find? n = some (k, X) ∧ X.kind = .cte := by
  have hcoh := p.coherent_registry Registry.coherent_empty
  have hfinal := Inventory.coherent_ofStatements resultName texts
  -- the registry of the script is the one at the site with the rest of the sites filed
  have hrest : (Inventory.ofStatements resultName texts).registry =
      p.registry.fileAll ((p.site :: p.after).map Site.definition) := by
    rw [Inventory.registry_ofStatements, ← map_definition_sites resultName 0]
    have hsplit := congrArg (fun ss => Registry.empty.fileAll (ss.map Site.definition)) p.split_before_after
    refine hsplit.trans ?_
    rw [List.map_append, Registry.fileAll_append]
    rfl
  have hspares : p.registry.SparesTables ((p.site :: p.after).map Site.definition) := by
    have hall := sparesTables_sites Registry.coherent_empty resultName 0 texts
    have hsplit := congrArg (List.map Site.definition) p.split_before_after
    rw [List.map_append] at hsplit
    rw [hsplit] at hall
    exact hall.of_append
  rw [registry_environment]
  cases hfind : p.registry.find? n with
  | none => exact .inl rfl
  | some found =>
    obtain ⟨j, X⟩ := found
    obtain ⟨hslot, hX⟩ := hcoh.find?_eq_some_iff.mp hfind
    have hoccupies := hcoh.occupies_fileAll hspares (.inl ⟨X, hslot, hX⟩)
    rw [← hrest] at hoccupies
    obtain rfl := hoccupies.slot_eq hfinal hC hname hcte
    refine .inr ⟨X, rfl, ?_⟩
    by_contra hkind
    have hholds : p.registry.Holds j n := ⟨X, hslot, hkind, hX⟩
    obtain ⟨Y, hY, hother, -⟩ := hcoh.holds_fileAll hspares hholds
    rw [← hrest, hC] at hY
    exact hother (Option.some.inj hY ▸ hcte)

end Script.Place

/-- Nothing is noted of a table that a bound name of the statement leads to. So if columns of a common table
expression are discovered, then one of them was observed where a definition is read, under a name that its
statement had not bound: nothing had the name there, or that common table expression had it already. -/
theorem Extraction.discovers_cte (script resultName : String) :
    let e : Extraction := ofScript script resultName
    let texts := Script.statements (Comment.strip script)
    let watches := Script.watches resultName 0 .empty texts
    (Inventory.ofStatements resultName texts).usage = Usage.empty.recordAll (watches.flatMap Watch.observed) ∧
    (∀ w ∈ watches, ∀ o ∈ w.observed, w.site.environment.ctes.files o.table = false) ∧
    ∀ k ∈ e.discovered.keys, ∀ (i : Nat) (C : Definition),
      e.definitions[i]? = some C → C.kind = .cte → upper C.name = upper k →
      ∃ w ∈ watches, ∃ o ∈ w.observed, upper o.table = upper k ∧ o.column ≠ "" ∧
        (∃ x ∈ w.site.names, x.2 = o.table) ∧
        ∀ x ∈ w.site.names, x.2 = o.table →
          upper x.1 = upper k ∧ w.site.environment.ctes.filed? x.1 = none ∧
          (w.site.environment.registry.find? x.1 = none ∨
            ∃ X, w.site.environment.registry.find? x.1 = some (i, X) ∧ X.kind = .cte) := by
  intro e texts watches
  have hcoh := Inventory.coherent_ofStatements resultName texts
  have husage := Inventory.usage_ofStatements resultName texts
  rw [← Script.observed_watches resultName 0 .empty texts] at husage
  have hsound := Script.sound_watches resultName 0 .empty texts
  refine ⟨husage, fun w hw o ho => (hsound w hw o ho).2, fun k hk i C hC hcte hname => ?_⟩
  obtain ⟨o, ho, hok, hc⟩ := Inventory.exists_observed hcoh husage hk
  obtain ⟨w, hw, how⟩ := List.mem_flatMap.mp ho
  obtain ⟨hreferenced, hfiles⟩ := hsound w hw o how
  have hsite : w.site ∈ Script.sites resultName 0 .empty texts := by
    rw [← Script.map_site_watches]
    exact List.mem_map_of_mem hw
  obtain ⟨before, after, hsplit⟩ := List.append_of_mem hsite
  obtain ⟨p, -, hp, -⟩ := Script.exists_place Registry.coherent_empty hsplit
  have hfaithful := p.series.faithful p.site p.site_mem
  rw [hp] at hfaithful
  refine ⟨w, hw, o, how, hok, hc, (hfaithful.referenced _).mp hreferenced, fun x hx hxo => ?_⟩
  have hfree : w.site.environment.ctes.filed? x.1 = none := by
    cases hv : w.site.environment.ctes.filed? x.1 with
    | none => rfl
    | some v =>
      -- what the name is bound to is a table of which nothing is observed
      obtain rfl := hfaithful.bound x hx v hv
      have hentry : (upper x.1, x.2) ∈ w.site.environment.ctes.names.entries := OrderedMap.mem_of_find? hv
      have hvalue : x.2 ∈ w.site.environment.ctes.names.values := List.mem_map.mpr ⟨_, hentry, rfl⟩
      rw [CteBindings.files, List.any_eq_false] at hfiles
      exact absurd (by rw [hxo]; exact sameFold_iff.mpr rfl) (hfiles _ hvalue)
  have hxk : upper x.1 = upper k := by rw [← hfaithful.free x hx hfree, hxo, hok]
  obtain ⟨d, hd, rfl⟩ := Inventory.getElem?_definitions hcoh hC (by rw [hcte]; rintro ⟨⟩)
  have hfind := p.find?_of_cte hd hcte (hname.trans hxk.symm)
  rw [hp] at hfind
  exact ⟨hxk, hfree, hfind⟩

/-- The first statement uses a column of `a` when nothing is called so, and then the second one declares a common
table expression of that name. -/
theorem Extraction.discovers_cte_declared_later :
    let e : Extraction := ofScript "SELECT x FROM a; WITH a AS (SELECT 1 AS x) SELECT x FROM a" "Query Result"
    e.discovered.entries = [("a", ["x"])] ∧
    ∃ C ∈ e.definitions, C.kind = .cte ∧ upper C.name = upper "a" ∧ "a" ∈ e.discovered.keys := by
  decide +kernel

end SqlLineage
