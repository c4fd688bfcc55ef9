import SqlLineage.Proofs.Case.Registry
import SqlLineage.Proofs.Script.Observed

/-! # Two runs side by side

Two scripts that differ in case only take the same steps. How far they then say the same depends on how closely one
looks.

* `CaseView`: what is looked at, and what a script has to satisfy for that.
* `CaseView.Kept`: no step of a run breaks the likeness of two registries.
* `CaseView.filings_eq`, `CaseView.statement_eq`, `CaseView.script_eq`: neither does a query, a statement or a
  script. -/

namespace SqlLineage
open SqlLineage.Text
set_option autoImplicit false

theorem map_eq_of_map_eq {α β γ : Type} {f : α → β} {g g' : α → γ} {xs xs' : List α} (h : xs'.map f = xs.map f)
    (hg : ∀ x ∈ xs, ∀ x' ∈ xs', f x' = f x → g' x' = g x) : xs'.map g' = xs.map g := by
  induction xs generalizing xs' with
  | nil =>
    rw [List.map_eq_nil_iff.mp h]
    rfl
  | cons x xs ih =>
    obtain ⟨x', xs', rfl, hx, hxs⟩ := List.map_eq_cons_iff.mp h
    rw [List.map_cons, List.map_cons, hg x (List.mem_cons_self ..) x' (List.mem_cons_self ..) hx,
      ih hxs fun y hy y' hy' => hg y (List.mem_cons_of_mem _ hy) y' (List.mem_cons_of_mem _ hy')]

/-- A look at definitions and observations in which case does not count. `slot` is what is seen of a definition
beside the keys of a registry; the conditions say which queries, column blocks and definitions it is meant for. -/
structure CaseView where
  slot : OrderedMap String Nat → Definition → Definition
  name_slot : ∀ index d, (slot index d).name = foldCase d.name
  observed : TableColumn → List TableColumn
  Reads : Environment → List Token → String → Definition.Kind → List String → Prop
  Declares : ColumnBlock → String → Prop
  Files : Registry → Definition → Prop

namespace CaseView
variable (v : CaseView)

/-! ## What is seen -/

def definition (d : Definition) : Definition :=
  v.slot .empty d

def registry (r : Registry) : Registry :=
  r.mapSlots (v.slot r.index)

def environment (env : Environment) : Environment :=
  ⟨v.registry env.registry, env.ctes.fold⟩

def filing (f : Filing) : Filing :=
  ⟨f.head.fold, f.body.map Token.fold, v.environment f.environment, foldCase f.name⟩

/-! ## What a script has to satisfy -/

def EvenFiling (f : Filing) : Prop :=
  v.Reads f.environment f.body f.name .cte f.head.columns

/-- A query whose definition is called `name` and its columns `names`. -/
structure EvenQuery (r : Registry) (ts : List Token) (name : String) (kind : Definition.Kind)
    (names : List String) : Prop where
  filings : ∀ f ∈ (Query.ofTokens ts).filings ⟨r, .empty⟩, v.EvenFiling f
  own : v.Reads ((Query.ofTokens ts).seen ⟨r, .empty⟩) (Query.ofTokens ts).mainBody name kind names

def EvenStatement (resultName : String) (r : Registry) : Statement → Prop
  | .createTable name (.columns block) => v.Declares block name
  | .createTable name (.query ts) => v.EvenQuery r ts name .table []
  | .createTable _ .empty => True
  | .createView name columns ts => v.EvenQuery r ts name .view columns
  | .query ts => v.EvenQuery r ts (r.unusedName resultName) .view []

def EvenText (resultName : String) (r : Registry) (text : String) : Prop :=
  match Statement.ofTokens? (Token.scan text) with
  | some s => v.EvenStatement resultName r s
  | none => True

def EvenAll (r : Registry) : List Definition → Prop
  | [] => True
  | d :: ds => v.Files r d ∧ EvenAll (r.define d).registry ds

/-- From the registry `r` on, whatever a statement reads, declares and files is meant for the view. -/
inductive EvenScript (resultName : String) : Registry → List String → Prop
  | nil (r : Registry) : EvenScript resultName r []
  | cons {r : Registry} {text : String} {texts : List String} (spelled : v.EvenText resultName r text)
      (filed : v.EvenAll r ((Statement.textEntries resultName r text).map Entry.definition))
      (rest : EvenScript resultName (r.fileAll ((Statement.textEntries resultName r text).map Entry.definition))
        texts) :
      EvenScript resultName r (text :: texts)

theorem evenScript_cons {resultName : String} {r : Registry} {text : String} {texts : List String} :
    v.EvenScript resultName r (text :: texts) ↔ v.EvenText resultName r text ∧
      v.EvenAll r ((Statement.textEntries resultName r text).map Entry.definition) ∧
      v.EvenScript resultName (r.fileAll ((Statement.textEntries resultName r text).map Entry.definition)) texts := by
  constructor
  · rintro (_ | ⟨spelled, filed, rest⟩)
    exact ⟨spelled, filed, rest⟩
  · rintro ⟨spelled, filed, rest⟩
    exact .cons spelled filed rest

theorem evenQuery_iff {r : Registry} {ts : List Token} {name : String} {kind : Definition.Kind} {names : List String} :
    v.EvenQuery r ts name kind names ↔
      (∀ f ∈ (Query.ofTokens ts).filings ⟨r, .empty⟩, v.Reads f.environment f.body f.name .cte f.head.columns) ∧
      v.Reads ((Query.ofTokens ts).seen ⟨r, .empty⟩) (Query.ofTokens ts).mainBody name kind names :=
  ⟨fun h => ⟨h.filings, h.own⟩, fun h => ⟨h.1, h.2⟩⟩

section Decidable
variable [∀ env ts name kind names, Decidable (v.Reads env ts name kind names)]
  [∀ block name, Decidable (v.Declares block name)] [∀ r d, Decidable (v.Files r d)]

instance (r : Registry) (ts : List Token) (name : String) (kind : Definition.Kind) (names : List String) :
    Decidable (v.EvenQuery r ts name kind names) :=
  decidable_of_iff _ v.evenQuery_iff.symm

instance decidableEvenStatement (resultName : String) (r : Registry) :
    ∀ s : Statement, Decidable (v.EvenStatement resultName r s)
  | .createTable name (.columns block) => inferInstanceAs (Decidable (v.Declares block name))
  | .createTable name (.query ts) => inferInstanceAs (Decidable (v.EvenQuery r ts name .table []))
  | .createTable _ .empty => isTrue trivial
  | .createView name columns ts => inferInstanceAs (Decidable (v.EvenQuery r ts name .view columns))
  | .query ts => inferInstanceAs (Decidable (v.EvenQuery r ts (r.unusedName resultName) .view []))

instance (resultName : String) (r : Registry) (text : String) : Decidable (v.EvenText resultName r text) := by
  unfold EvenText
  cases Statement.ofTokens? (Token.scan text) with
  | none => exact isTrue trivial
  | some s => exact v.decidableEvenStatement resultName r s

instance decidableEvenAll : ∀ (r : Registry) (ds : List Definition), Decidable (v.EvenAll r ds)
  | _, [] => isTrue trivial
  | r, d :: ds =>
    have := decidableEvenAll (r.define d).registry ds
    inferInstanceAs (Decidable (v.Files r d ∧ v.EvenAll (r.define d).registry ds))

instance decidableEvenScript (resultName : String) :
    ∀ (r : Registry) (texts : List String), Decidable (v.EvenScript resultName r texts)
  | r, [] => isTrue (.nil r)
  | r, text :: texts =>
    have := decidableEvenScript resultName
      (r.fileAll ((Statement.textEntries resultName r text).map Entry.definition)) texts
    decidable_of_iff _ v.evenScript_cons.symm

end Decidable

/-! ## Steps -/

/-- Two steps from registries that look the same, on texts that are equal in capitals, lead to what looks the
same. -/
structure Kept : Prop where
  bare : ∀ {name name' : String} (kind : Definition.Kind), foldCase name' = foldCase name →
    v.definition (.bare name' kind) = v.definition (.bare name kind)
  read : ∀ {env env' : Environment} {ts ts' : List Token} {name name' : String} {kind : Definition.Kind}
    {names names' : List String}, v.environment env' = v.environment env →
    ts'.map Token.fold = ts.map Token.fold → foldCase name' = foldCase name →
    names'.map foldCase = names.map foldCase →
    v.Reads env ts name kind names → v.Reads env' ts' name' kind names' →
    v.definition ((Select.read env' ts' name' kind).definition.renameColumns names') =
        v.definition ((Select.read env ts name kind).definition.renameColumns names) ∧
      (Select.read env' ts' name' kind).observed.flatMap v.observed =
        (Select.read env ts name kind).observed.flatMap v.observed
  declare : ∀ {block block' : ColumnBlock} {name name' : String}, block'.fold = block.fold →
    foldCase name' = foldCase name → v.Declares block name → v.Declares block' name' →
    v.definition (block'.read name').definition = v.definition (block.read name).definition ∧
      (block'.read name').observed.flatMap v.observed = (block.read name).observed.flatMap v.observed
  define : ∀ {r r' : Registry} {d d' : Definition}, r.Coherent → r'.Coherent → v.registry r' = v.registry r →
    v.definition d' = v.definition d → v.Files r d → v.Files r' d' →
    v.registry (r'.define d').registry = v.registry (r.define d).registry
  cte : ∀ (r : Registry) {d : Definition}, d.kind = .cte → v.Files r d

variable {v}

theorem unusedName_eq {r r' : Registry} (hr : v.registry r' = v.registry r) {name name' : String}
    (hname : foldCase name' = foldCase name) : foldCase (r'.unusedName name') = foldCase (r.unusedName name) := by
  rw [← r'.unusedName_mapSlots (g := v.slot r'.index), hname, ← r.unusedName_mapSlots (g := v.slot r.index)]
  exact congrArg (fun r : Registry => r.unusedName (foldCase name)) hr

theorem within_eq {env env' : Environment} (henv : v.environment env' = v.environment env) {head head' : Cte}
    (hhead : head'.fold = head.fold) : v.environment (env'.within head') = v.environment (env.within head) := by
  obtain ⟨hr, hctes⟩ := Environment.mk.inj henv
  obtain ⟨hname, -, hrecursive, -⟩ := Cte.mk.inj hhead
  unfold Environment.within
  rw [hrecursive]
  split
  · have hfiled := unusedName_eq hr hname
    simp only [environment, ← CteBindings.bind_fold, hr, hctes, hname, hfiled]
  · exact henv

section Filings
variable {f f' : Filing} (hv : v.Kept) (hf : v.filing f' = v.filing f)
include hv hf

theorem definition_filing_eq (h : v.EvenFiling f) (h' : v.EvenFiling f') :
    v.definition f'.definition = v.definition f.definition ∧
      f'.observed.flatMap v.observed = f.observed.flatMap v.observed := by
  obtain ⟨hhead, hbody, henv, hname⟩ := Filing.mk.inj hf
  exact hv.read henv hbody hname (Cte.mk.inj hhead).2.1 h h'

theorem after_eq (hc : f.environment.registry.Coherent) (hc' : f'.environment.registry.Coherent)
    (h : v.EvenFiling f) (h' : v.EvenFiling f') : v.environment f'.after = v.environment f.after := by
  obtain ⟨hhead, -, henv, hname⟩ := Filing.mk.inj hf
  obtain ⟨hr, hctes⟩ := Environment.mk.inj henv
  have hdefine := hv.define hc hc' hr (definition_filing_eq hv hf h h').1 (hv.cte _ f.kind_definition)
    (hv.cte _ f'.kind_definition)
  have hhead : foldCase f'.head.name = foldCase f.head.name := (Cte.mk.inj hhead).1
  simp only [Filing.after, environment, hdefine, ← CteBindings.bind_fold, hctes, hhead, hname]

end Filings

/-! ## Queries -/

theorem mainBody_eq {q q' : Query} (hq : q'.fold = q.fold) :
    q'.mainBody.map Token.fold = q.mainBody.map Token.fold := by
  induction q generalizing q' with
  | body ts =>
    cases q' with
    | body ts' => exact Query.body.inj hq
    | cte head' definition' rest' => cases hq
  | cte head definition rest _ ih =>
    cases q' with
    | body ts' => cases hq
    | cte head' definition' rest' =>
      have hrest := ih (Query.cte.inj hq).2.2
      exact hrest

/-- Two queries that are equal in capitals file and see what looks the same. -/
theorem filings_eq (hv : v.Kept) {q q' : Query} (hq : q'.fold = q.fold) {env env' : Environment}
    (henv : v.environment env' = v.environment env) (hc : env.registry.Coherent) (hc' : env'.registry.Coherent)
    (h : ∀ f ∈ q.filings env, v.EvenFiling f) (h' : ∀ f ∈ q'.filings env', v.EvenFiling f) :
    (q'.filings env').map v.filing = (q.filings env).map v.filing ∧
      v.environment (q'.seen env') = v.environment (q.seen env) := by
  induction q generalizing q' env env' with
  | body ts =>
    cases q' with
    | body ts' => exact ⟨rfl, henv⟩
    | cte head' definition' rest' => cases hq
  | cte head definition rest ihd ihr =>
    cases q' with
    | body ts' => cases hq
    | cte head' definition' rest' =>
      obtain ⟨hhead, hdefinition, hrest⟩ := Query.cte.inj hq
      rw [Query.filings] at h h'
      obtain ⟨hd, hown, hr⟩ := List.forall_mem_append.mp h |>.imp id List.forall_mem_cons.mp
      obtain ⟨hd', hown', hr'⟩ := List.forall_mem_append.mp h' |>.imp id List.forall_mem_cons.mp
      rw [← env.registry_within head] at hc
      rw [← env'.registry_within head'] at hc'
      obtain ⟨hfilings, hseen⟩ := ihd hdefinition (within_eq henv hhead) hc hc' hd hd'
      have hname := unusedName_eq (Environment.mk.inj henv).1 (Cte.mk.inj hhead).1
      have hfiling : v.filing (Query.filing env' head' definition') = v.filing (Query.filing env head definition) := by
        simp only [Query.filing, filing, hhead, mainBody_eq hdefinition, hseen, hname]
      have hs := definition.coherent_seen hc
      have hs' := definition'.coherent_seen hc'
      obtain ⟨hlater, hend⟩ := ihr hrest (after_eq hv hfiling hs hs' hown hown') (hs.define _) (hs'.define _) hr hr'
      refine ⟨?_, hend⟩
      rw [Query.filings, Query.filings, List.map_append, List.map_append, List.map_cons, List.map_cons, hfilings,
        hfiling, hlater]

/-! ## Statements -/

section Statements
variable (hv : v.Kept) {r r' : Registry} (hr : v.registry r' = v.registry r) (hc : r.Coherent) (hc' : r'.Coherent)
include hv hr hc hc'

theorem query_eq {ts ts' : List Token} (hts : ts'.map Token.fold = ts.map Token.fold) {name name' : String}
    (hname : foldCase name' = foldCase name) {kind : Definition.Kind} {names names' : List String}
    (hnames : names'.map foldCase = names.map foldCase) (h : v.EvenQuery r ts name kind names)
    (h' : v.EvenQuery r' ts' name' kind names') :
    ((Statement.queryEntries r' ts' name' kind (·.renameColumns names')).map fun e => v.definition e.definition) =
        ((Statement.queryEntries r ts name kind (·.renameColumns names)).map fun e => v.definition e.definition) ∧
      (Statement.queryObserved r' ts' name' kind).flatMap v.observed =
        (Statement.queryObserved r ts name kind).flatMap v.observed := by
  have hq : (Query.ofTokens ts').fold = (Query.ofTokens ts).fold := by
    rw [← Query.ofTokens_fold, hts, Query.ofTokens_fold]
  have henv : v.environment ⟨r', .empty⟩ = v.environment ⟨r, .empty⟩ := by
    rw [environment, hr, environment]
  obtain ⟨hfilings, hseen⟩ := filings_eq hv hq henv hc hc' h.filings h'.filings
  obtain ⟨hown, hobserved⟩ := hv.read hseen (mainBody_eq hq) hname hnames h.own h'.own
  have heach : ∀ f ∈ (Query.ofTokens ts).filings ⟨r, .empty⟩, ∀ f' ∈ (Query.ofTokens ts').filings ⟨r', .empty⟩,
      v.filing f' = v.filing f → v.definition f'.definition = v.definition f.definition ∧
        f'.observed.flatMap v.observed = f.observed.flatMap v.observed :=
    fun f hf f' hf' hff => definition_filing_eq hv hff (h.filings f hf) (h'.filings f' hf')
  constructor
  · have hdefinitions := map_eq_of_map_eq hfilings fun f hf f' hf' hff => (heach f hf f' hf' hff).1
    simp only [Statement.queryEntries, List.map_append, List.map_map, Function.comp_def, Entry.definition_cte,
      List.map_singleton, hdefinitions]
    rw [Entry.definition, Entry.definition, hown]
  · have hall := map_eq_of_map_eq hfilings fun f hf f' hf' hff => (heach f hf f' hf' hff).2
    rw [Statement.queryObserved, Query.observed, Statement.queryObserved, Query.observed, List.flatMap_append,
      List.flatMap_append, List.flatMap_assoc, List.flatMap_assoc]
    refine congrArg₂ (· ++ ·) ?_ hobserved
    rw [List.flatMap_def, List.flatMap_def, hall]

theorem statement_eq {resultName : String} {s s' : Statement} (hs : s'.fold = s.fold)
    (h : v.EvenStatement resultName r s) (h' : v.EvenStatement resultName r' s') :
    ((s'.entries resultName r').map fun e => v.definition e.definition) =
        ((s.entries resultName r).map fun e => v.definition e.definition) ∧
      (s'.observed resultName r').flatMap v.observed = (s.observed resultName r).flatMap v.observed := by
  have hid : (fun d : Definition => d.renameColumns []) = id := funext Definition.renameColumns_nil
  cases s with
  | createTable name body =>
    cases s' with
    | createTable name' body' =>
      obtain ⟨hname, hbody⟩ := Statement.createTable.inj hs
      cases body with
      | columns block =>
        cases body' with
        | columns block' =>
          obtain ⟨hd, hobserved⟩ := hv.declare (TableBody.columns.inj hbody) hname h h'
          exact ⟨congrArg (fun d => [d]) hd, hobserved⟩
        | query ts' => cases hbody
        | empty => cases hbody
      | query ts =>
        cases body' with
        | columns block' => cases hbody
        | query ts' =>
          have hquery := query_eq hv hr hc hc' (TableBody.query.inj hbody) hname rfl h h'
          rw [hid] at hquery
          exact hquery
        | empty => cases hbody
      | empty =>
        cases body' with
        | columns block' => cases hbody
        | query ts' => cases hbody
        | empty => exact ⟨congrArg (fun d => [d]) (hv.bare .table hname), rfl⟩
    | createView name' columns' ts' => cases hs
    | query ts' => cases hs
  | createView name columns ts =>
    cases s' with
    | createTable name' body' => cases hs
    | createView name' columns' ts' =>
      obtain ⟨hname, hcolumns, hts⟩ := Statement.createView.inj hs
      exact query_eq hv hr hc hc' hts hname hcolumns h h'
    | query ts' => cases hs
  | query ts =>
    cases s' with
    | createTable name' body' => cases hs
    | createView name' columns' ts' => cases hs
    | query ts' =>
      have hquery := query_eq hv hr hc hc' (Statement.query.inj hs) (unusedName_eq hr rfl) rfl h h'
      rw [hid] at hquery
      exact hquery

theorem text_eq {resultName : String} {text text' : String} (htext : foldCase text' = foldCase text)
    (h : v.EvenText resultName r text) (h' : v.EvenText resultName r' text') :
    ((Statement.textEntries resultName r' text').map fun e => v.definition e.definition) =
        ((Statement.textEntries resultName r text).map fun e => v.definition e.definition) ∧
      (Statement.textObserved resultName r' text').flatMap v.observed =
        (Statement.textObserved resultName r text).flatMap v.observed := by
  have hs : (Statement.ofTokens? (Token.scan text')).map Statement.fold =
      (Statement.ofTokens? (Token.scan text)).map Statement.fold := by
    rw [← Statement.ofTokens?_fold, ← Token.scan_foldCase, htext, Token.scan_foldCase, Statement.ofTokens?_fold]
  unfold EvenText at h h'
  unfold Statement.textEntries Statement.textObserved
  cases hold : Statement.ofTokens? (Token.scan text) with
  | none =>
    rw [hold] at hs
    rw [Option.map_eq_none_iff.mp hs]
    exact ⟨rfl, rfl⟩
  | some s =>
    rw [hold] at hs h
    obtain ⟨s', hnew, hss⟩ := Option.map_eq_some_iff.mp hs
    rw [hnew] at h' ⊢
    exact statement_eq hv hr hc hc' hss h h'

theorem fileAll_eq {ds ds' : List Definition} (hds : ds'.map v.definition = ds.map v.definition)
    (h : v.EvenAll r ds) (h' : v.EvenAll r' ds') : v.registry (r'.fileAll ds') = v.registry (r.fileAll ds) := by
  induction ds generalizing r r' ds' with
  | nil =>
    rw [List.map_eq_nil_iff.mp hds]
    exact hr
  | cons d ds ih =>
    obtain ⟨d', ds', rfl, hd, hds⟩ := List.map_eq_cons_iff.mp hds
    have hrest := ih (hv.define hc hc' hr hd h.1 h'.1) (hc.define d) (hc'.define d') hds h.2 h'.2
    exact hrest

/-! ## Scripts -/

theorem script_eq {resultName : String} {texts texts' : List String}
    (htexts : texts'.map foldCase = texts.map foldCase) (h : v.EvenScript resultName r texts)
    (h' : v.EvenScript resultName r' texts') :
    v.registry (r'.fileAll ((Script.entries resultName r' texts').map Entry.definition)) =
        v.registry (r.fileAll ((Script.entries resultName r texts).map Entry.definition)) ∧
      (Script.observed resultName r' texts').flatMap v.observed =
        (Script.observed resultName r texts).flatMap v.observed := by
  induction texts generalizing texts' r r' with
  | nil =>
    rw [List.map_eq_nil_iff.mp htexts]
    exact ⟨hr, rfl⟩
  | cons text texts ih =>
    obtain ⟨text', texts', rfl, htext, htexts⟩ := List.map_eq_cons_iff.mp htexts
    obtain ⟨hspelled, hfiled, hrest⟩ := v.evenScript_cons.mp h
    obtain ⟨hspelled', hfiled', hrest'⟩ := v.evenScript_cons.mp h'
    obtain ⟨hentries, hobserved⟩ := text_eq hv hr hc hc' htext hspelled hspelled'
    have hds : ((Statement.textEntries resultName r' text').map Entry.definition).map v.definition =
        ((Statement.textEntries resultName r text).map Entry.definition).map v.definition := by
      rw [List.map_map, List.map_map]
      exact hentries
    obtain ⟨hlater, hlaterObserved⟩ := ih (fileAll_eq hv hr hc hc' hds hfiled hfiled') (hc.fileAll _) (hc'.fileAll _)
      htexts hrest hrest'
    constructor
    · rw [Script.entries, List.map_append, Registry.fileAll_append, Script.entries, List.map_append,
        Registry.fileAll_append]
      exact hlater
    · rw [Script.observed, List.flatMap_append, Script.observed, List.flatMap_append, hobserved, hlaterObserved]

end Statements
end CaseView
end SqlLineage
