import SqlLineage.Proofs.Registry.Spelling
import SqlLineage.Proofs.Registry.Usage
import SqlLineage.Proofs.Script.Trace
import SqlLineage.Proofs.Select.Observed

/-! # What a script observes

* `Script.observed`: all that the bodies and column blocks of a script observe, in the order of reading.
  `Inventory.usage_ofStatements` says that the usage of the script is made of it.
* `Registry.Coherent.sources_fileAll`: what is so of all columns that filed definitions take, and of all
  columns of defined tables, stays so under every filing and move.
* `Script.accounts`: whatever a definition of the script takes is observed, or its table is defined. -/

namespace SqlLineage
open SqlLineage.Text
set_option autoImplicit false

/-! ## Observations in their order -/

theorem Usage.recordAll_append (u : Usage) (os os' : List TableColumn) :
    u.recordAll (os ++ os') = (u.recordAll os).recordAll os' :=
  List.foldl_append

@[simp] theorem Inventory.usage_enter (inv : Inventory) (owner : String) (head : Cte) :
    (inv.enter owner head).usage = inv.usage := by
  unfold enter
  split <;> rfl

def Filing.observed (f : Filing) : List TableColumn :=
  (Select.read f.environment f.body f.name .cte).observed


namespace Query

/-- What the bodies of a query observe. -/
def observed (env : Environment) (q : Query) (name : String) (kind : Definition.Kind) : List TableColumn :=
  (q.filings env).flatMap Filing.observed ++ (Select.read (q.seen env) q.mainBody name kind).observed

theorem usage_unwind (q : Query) (name : String) (kind : Definition.Kind) (inv : Inventory) (ctes : CteBindings) :
    (q.unwind name kind inv ctes).inventory.usage =
      inv.usage.recordAll (q.observed ⟨inv.registry, ctes⟩ name kind) := by
  induction q generalizing name kind inv ctes with
  | body ts => rfl
  | cte head definition rest ihd ihr =>
    have hd := ihd (inv.registry.unusedName head.name) .cte (inv.enter name head)
      (Environment.within ⟨inv.registry, ctes⟩ head).ctes
    rw [environment_enter, inv.usage_enter] at hd
    have hafter := (filed_unwindDefinition name inv ctes head definition).2
    rw [unwind_cte, ihr, hafter, unwindDefinition, Inventory.usage_define, hd, ← Usage.recordAll_append]
    simp only [observed, filings, List.flatMap_append, List.flatMap_cons, List.append_assoc]
    rfl

end Query

namespace Statement

/-- What a statement observes whose definition is a query. -/
def queryObserved (r : Registry) (ts : List Token) (name : String) (kind : Definition.Kind) : List TableColumn :=
  (Query.ofTokens ts).observed ⟨r, .empty⟩ name kind

def observed (resultName : String) (r : Registry) : Statement → List TableColumn
  | .createTable name (.columns block) => (block.read name).observed
  | .createTable name (.query ts) => queryObserved r ts name .table
  | .createTable _ .empty => []
  | .createView name _ ts => queryObserved r ts name .view
  | .query ts => queryObserved r ts (r.unusedName resultName) .view

def textObserved (resultName : String) (r : Registry) (text : String) : List TableColumn :=
  match ofTokens? (Token.scan text) with
  | some s => s.observed resultName r
  | none => []

theorem usage_addTo (resultName : String) (inv : Inventory) (s : Statement) :
    (s.addTo resultName inv).usage = inv.usage.recordAll (s.observed resultName inv.registry) := by
  have hquery : ∀ (ts : List Token) (name : String) (kind : Definition.Kind) (f : Definition → Definition),
      (addQuery inv ts name kind f).usage = inv.usage.recordAll (queryObserved inv.registry ts name kind) :=
    fun ts name kind _ => (Query.ofTokens ts).usage_unwind name kind inv .empty
  cases s with
  | createTable name body =>
    cases body with
    | columns block =>
      rw [addTo, observed, Inventory.usage_define, Inventory.absorb]
      split <;> rfl
    | query ts =>
      rw [addTo, observed]
      exact hquery ts name .table id
    | empty => rfl
  | createView name columns ts =>
    rw [addTo, observed]
    exact hquery ts name .view _
  | query ts =>
    rw [addTo, observed]
    exact hquery ts _ .view id

theorem usage_addText (resultName : String) (inv : Inventory) (text : String) :
    (addText resultName inv text).usage = inv.usage.recordAll (textObserved resultName inv.registry text) := by
  unfold addText textObserved
  cases ofTokens? (Token.scan text) with
  | none => rfl
  | some s => exact usage_addTo resultName inv s

end Statement

/-- What the statements of a script observe, from the registry `r` on. -/
def Script.observed (resultName : String) (r : Registry) : List String → List TableColumn
  | [] => []
  | text :: texts =>
    Statement.textObserved resultName r text ++
      observed resultName (r.fileAll ((Statement.textEntries resultName r text).map Entry.definition)) texts

theorem Inventory.usage_ofStatements (resultName : String) (texts : List String) :
    (ofStatements resultName texts).usage = Usage.empty.recordAll (Script.observed resultName .empty texts) := by
  have hall : ∀ inv : Inventory, (texts.foldl (Statement.addText resultName) inv).usage =
      inv.usage.recordAll (Script.observed resultName inv.registry texts) := by
    induction texts with
    | nil => exact fun inv => rfl
    | cons text texts ih =>
      intro inv
      rw [List.foldl_cons, ih, Statement.usage_addText, Statement.registry_addText, ← Usage.recordAll_append]
      rfl
  exact hall .empty

/-! ## Columns of filed definitions -/

namespace Registry

section Sources
variable {r : Registry} {P : TableColumn → Prop}

/-- If `P` is so of all columns of the tables that a filing leaves defined, and of all that the definitions take,
then it is so of all that they take behind the filing. -/
theorem Coherent.sources_define (h : r.Coherent) {d : Definition}
    (hdefined : ∀ p : TableColumn, (r.define d).registry.defines p.table = true → P p)
    (hr : ∀ e ∈ r.slots, ∀ p ∈ e.sources, P p) (hd : ∀ p ∈ d.sources, P p) :
    ∀ e ∈ (r.define d).registry.slots, ∀ p ∈ e.sources, P p := by
  have hrespelled : ∀ e : Definition, (∀ p ∈ e.sources, P p) →
      ∀ p ∈ (e.mapReferenced (r.respellOne d)).sources, P p := by
    intro e he p hp
    rw [Definition.sources_mapReferenced] at hp
    obtain ⟨q, hq, rfl⟩ := List.mem_map.mp hp
    rcases h.respellOne_cases d q.table with hsame | hdef
    · rw [hsame]
      exact he q hq
    · exact hdefined _ hdef
  intro e he
  obtain ⟨i, hi⟩ := List.mem_iff_getElem?.mp he
  rw [h.getElem?_define] at hi
  split at hi
  · exact Option.some.inj hi ▸ hrespelled d hd
  · obtain ⟨o, ho, rfl⟩ := Option.map_eq_some_iff.mp hi
    exact hrespelled o (hr o (List.mem_of_getElem? ho))

theorem Coherent.sources_fileAll (h : r.Coherent) {ds : List Definition}
    (hdefined : ∀ p : TableColumn, (r.fileAll ds).defines p.table = true → P p)
    (hr : ∀ e ∈ r.slots, ∀ p ∈ e.sources, P p) (hds : ∀ d ∈ ds, ∀ p ∈ d.sources, P p) :
    ∀ e ∈ (r.fileAll ds).slots, ∀ p ∈ e.sources, P p := by
  induction ds generalizing r with
  | nil => exact hr
  | cons d ds ih =>
    obtain ⟨hd, hds⟩ := List.forall_mem_cons.mp hds
    refine ih (h.define d) hdefined (h.sources_define (fun p hp => hdefined p ?_) hr hd) hds
    exact (h.define d).defines_fileAll ds hp

end Sources
end Registry

/-! ## Bound names get definitions -/

theorem Environment.mem_values_within {env : Environment} {head : Cte} {v : String}
    (h : v ∈ (env.within head).ctes.names.values) :
    v = env.registry.unusedName head.name ∨ v ∈ env.ctes.names.values := by
  unfold within at h
  split at h
  · exact OrderedMap.mem_values_insert h
  · exact .inr h

namespace Query

/-- Names are bound to what was bound before and to common table expressions of the query. -/
theorem mem_values (q : Query) (env : Environment) :
    (∀ v ∈ (q.seen env).ctes.names.values, v ∈ env.ctes.names.values ∨ v ∈ (q.filings env).map Filing.name) ∧
    ∀ f ∈ q.filings env, ∀ v ∈ f.environment.ctes.names.values,
      v ∈ env.ctes.names.values ∨ v ∈ (q.filings env).map Filing.name := by
  induction q generalizing env with
  | body ts =>
    refine ⟨fun v hv => .inl hv, fun f hf => ?_⟩
    rw [filings] at hf
    cases hf
  | cte head definition rest ihd ihr =>
    obtain ⟨hdseen, hdfilings⟩ := ihd (env.within head)
    obtain ⟨hrseen, hrfilings⟩ := ihr (filing env head definition).after
    rw [filings, List.map_append, List.map_cons]
    have hown : ∀ v, v = env.registry.unusedName head.name →
        v ∈ (definition.filings (env.within head)).map Filing.name ++
          (filing env head definition).name :: (rest.filings (filing env head definition).after).map Filing.name :=
      fun v hv => List.mem_append_right _ (hv ▸ List.mem_cons_self ..)
    have hinner : ∀ v, v ∈ (env.within head).ctes.names.values ∨
        v ∈ (definition.filings (env.within head)).map Filing.name → v ∈ env.ctes.names.values ∨
        v ∈ (definition.filings (env.within head)).map Filing.name ++
          (filing env head definition).name :: (rest.filings (filing env head definition).after).map Filing.name := by
      rintro v (hv | hv)
      · exact (Environment.mem_values_within hv).symm.imp_right (hown v)
      · exact .inr (List.mem_append_left _ hv)
    have hbehind : ∀ v, v ∈ (filing env head definition).after.ctes.names.values ∨
        v ∈ (rest.filings (filing env head definition).after).map Filing.name → v ∈ env.ctes.names.values ∨
        v ∈ (definition.filings (env.within head)).map Filing.name ++
          (filing env head definition).name :: (rest.filings (filing env head definition).after).map Filing.name := by
      rintro v (hv | hv)
      · rcases OrderedMap.mem_values_insert hv with rfl | hv
        · exact .inr (hown _ rfl)
        · exact hinner v (hdseen v hv)
      · exact .inr (List.mem_append_right _ (List.mem_cons_of_mem _ hv))
    refine ⟨fun v hv => hbehind v (hrseen v hv), fun f hf v hv => ?_⟩
    rcases List.mem_append.mp hf with hf | hf
    · exact hinner v (hdfilings f hf v hv)
    · rcases List.mem_cons.mp hf with rfl | hf
      · exact hinner v (hdseen v hv)
      · exact hbehind v (hrfilings f hf v hv)

end Query

/-- Whatever is defined or bound in the environment is defined in `r`. -/
structure Environment.Within (env : Environment) (r : Registry) : Prop where
  registry : ∀ n, env.registry.defines n = true → r.defines n = true
  ctes : ∀ v ∈ env.ctes.names.values, r.defines v = true

theorem Environment.Within.defined {env : Environment} {r : Registry} (h : env.Within r) {os : List TableColumn}
    {p : TableColumn} (hp : env.Accounts os p) : p ∈ os ∨ r.defines p.table = true := by
  rcases hp with hp | hp | hp
  · exact .inl hp
  · exact .inr (h.registry _ hp)
  · obtain ⟨v, hv, hsame⟩ := List.any_eq_true.mp hp
    exact .inr (r.defines_congr (upper_eq_of_sameFold hsame) ▸ h.ctes v hv)

namespace Query

/-- All bodies of a statement see what is defined when its common table expressions are filed. -/
theorem within_fileAll (q : Query) {r : Registry} (h : r.Coherent) :
    (q.seen ⟨r, .empty⟩).Within (r.fileAll ((q.filings ⟨r, .empty⟩).map Filing.definition)) ∧
    ∀ f ∈ q.filings ⟨r, .empty⟩,
      f.environment.Within (r.fileAll ((q.filings ⟨r, .empty⟩).map Filing.definition)) := by
  obtain ⟨hseen, hfilings⟩ := q.mem_values ⟨r, .empty⟩
  have hnames : ∀ v, v ∈ CteBindings.empty.names.values ∨ v ∈ (q.filings ⟨r, .empty⟩).map Filing.name →
      (r.fileAll ((q.filings ⟨r, .empty⟩).map Filing.definition)).defines v = true := by
    rintro v (hv | hv)
    · cases hv
    · obtain ⟨f, hf, rfl⟩ := List.mem_map.mp hv
      rw [← f.name_definition]
      exact h.defines_fileAll_of_mem (List.mem_map_of_mem hf)
  constructor
  · exact ⟨fun n hn => by rwa [q.registry_seen] at hn, fun v hv => hnames v (hseen v hv)⟩
  · intro f hf
    refine ⟨fun n hn => ?_, fun v hv => hnames v (hfilings f hf v hv)⟩
    obtain ⟨before, after, hsplit⟩ := List.append_of_mem hf
    rw [q.registry_of_split _ hsplit] at hn
    rw [hsplit, List.map_append, Registry.fileAll_append]
    exact (h.fileAll _).defines_fileAll _ hn

end Query

/-! ## Whatever is taken is observed or defined -/

namespace Statement

theorem accounts_query {r : Registry} (h : r.Coherent) (ts : List Token) (name : String) (kind : Definition.Kind)
    {f : Definition → Definition} (hf : ∀ d, (f d).sources = d.sources) :
    ∀ e ∈ queryEntries r ts name kind f, ∀ p ∈ e.definition.sources, p.column ≠ "" →
      p ∈ queryObserved r ts name kind ∨
        (r.fileAll ((queryEntries r ts name kind f).map Entry.definition)).defines p.table = true := by
  obtain ⟨hseen, hfilings⟩ := (Query.ofTokens ts).within_fileAll h
  have hlater : ∀ {os : List TableColumn} {p : TableColumn}, os ⊆ queryObserved r ts name kind →
      (p ∈ os ∨ (r.fileAll (((Query.ofTokens ts).filings ⟨r, .empty⟩).map Filing.definition)).defines p.table = true) →
      p ∈ queryObserved r ts name kind ∨
        (r.fileAll ((queryEntries r ts name kind f).map Entry.definition)).defines p.table = true := by
    intro os p hos hp
    refine hp.imp (fun hp => hos hp) fun hp => ?_
    rw [queryEntries, List.map_append, List.map_map, Entry.comp_definition_cte, Registry.fileAll_append]
    exact (h.fileAll _).defines_fileAll _ hp
  intro e he p hp hc
  rcases List.mem_append.mp he with he | he
  · obtain ⟨g, hg, rfl⟩ := List.mem_map.mp he
    rw [Entry.definition_cte, Filing.definition, Definition.sources_renameColumns] at hp
    refine hlater (fun o ho => ?_) ((hfilings g hg).defined (Select.accounts_read hp hc))
    exact List.mem_append_left _ (List.mem_flatMap.mpr ⟨g, hg, ho⟩)
  · rw [List.mem_singleton.mp he, Entry.definition, hf] at hp
    exact hlater (List.subset_append_right _ _) (hseen.defined (Select.accounts_read hp hc))

theorem accounts {r : Registry} (h : r.Coherent) (resultName : String) (s : Statement) :
    ∀ e ∈ s.entries resultName r, ∀ p ∈ e.definition.sources, p.column ≠ "" →
      p ∈ s.observed resultName r ∨
        (r.fileAll ((s.entries resultName r).map Entry.definition)).defines p.table = true := by
  cases s with
  | createTable name body =>
    cases body with
    | columns block =>
      intro e he p hp _
      rw [List.mem_singleton.mp he] at hp
      refine .inl ?_
      rw [observed, block.observed_read]
      exact hp
    | query ts =>
      rw [entries, observed]
      exact accounts_query h ts name .table fun _ => rfl
    | empty =>
      intro e he p hp
      rw [List.mem_singleton.mp he] at hp
      cases hp
  | createView name columns ts =>
    rw [entries, observed]
    exact accounts_query h ts name .view fun d => d.sources_renameColumns columns
  | query ts =>
    rw [entries, observed]
    exact accounts_query h ts _ .view fun _ => rfl

end Statement

theorem Script.accounts_entries {r : Registry} (h : r.Coherent) (resultName : String) (texts : List String) :
    ∀ e ∈ entries resultName r texts, ∀ p ∈ e.definition.sources, p.column ≠ "" →
      p ∈ observed resultName r texts ∨
        (r.fileAll ((entries resultName r texts).map Entry.definition)).defines p.table = true := by
  induction texts generalizing r with
  | nil =>
    intro e he
    cases he
  | cons text texts ih =>
    have hown : ∀ e ∈ Statement.textEntries resultName r text, ∀ p ∈ e.definition.sources, p.column ≠ "" →
        p ∈ Statement.textObserved resultName r text ∨
          (r.fileAll ((Statement.textEntries resultName r text).map Entry.definition)).defines p.table = true := by
      unfold Statement.textEntries Statement.textObserved
      cases Statement.ofTokens? (Token.scan text) with
      | none =>
        intro e he
        cases he
      | some s => exact Statement.accounts h resultName s
    intro e he p hp hc
    rw [entries, List.map_append, Registry.fileAll_append]
    rcases List.mem_append.mp he with he | he
    · exact (hown e he p hp hc).imp (List.mem_append_left _) ((h.fileAll _).defines_fileAll _)
    · exact (ih (h.fileAll _) e he p hp hc).imp_left (List.mem_append_right _)

/-- In the end, whatever a definition takes of a table that has no definition is observed. -/
theorem Inventory.accounts_ofStatements (resultName : String) (texts : List String) :
    ∀ d ∈ (ofStatements resultName texts).registry.slots, ∀ p ∈ d.sources, p.column ≠ "" →
      p ∈ Script.observed resultName .empty texts ∨
        (ofStatements resultName texts).registry.defines p.table = true := by
  rw [registry_ofStatements]
  refine Registry.coherent_empty.sources_fileAll (fun p hp _ => .inr hp) (fun e he => ?_) fun d hd p hp => ?_
  · cases he
  · obtain ⟨e, he, rfl⟩ := List.mem_map.mp hd
    exact Script.accounts_entries Registry.coherent_empty resultName texts e he p hp

end SqlLineage
