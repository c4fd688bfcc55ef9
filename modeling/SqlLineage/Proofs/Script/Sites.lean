import SqlLineage.Proofs.Script.Observed

/-! # Where the definitions of a script are read

* `Site`: a definition with the statement that files it, what is seen where it is read, and the table names in
  it, as they are written and as the definition says them.
* `Statement.sites`, `Script.sites`: all of them in the order of filing.
* `Site.Series`: what is known of the sites of one statement. Its common table expressions come first, under
  names that nothing has before the statement, and its own definition comes last.
* `Script.Place`, `Script.exists_place`: every site of a script stands in the series of its statement, behind the
  sites of earlier statements and in front of those of later ones. -/

namespace SqlLineage
open SqlLineage.Text
set_option autoImplicit false

/-! ## Sites -/

/-- A definition at the place where it is read. `names` are the table names in it, each as it is written and as
the definition says it. -/
structure Site where
  statement : Nat
  definition : Definition
  environment : Environment
  names : List (String × String)

namespace Site

/-- The site of a query body that gives the definition `d`. -/
def ofBody (i : Nat) (env : Environment) (ts : List Token) (d : Definition) : Site :=
  ⟨i, d, env, (Select.mentions ts).map fun m => (m.table.text, env.resolve m.table.text)⟩

def ofFiling (i : Nat) (f : Filing) : Site :=
  ofBody i f.environment f.body f.definition

/-- The site of a definition without a query, whose references stay as they are written. -/
def ofBlock (i : Nat) (r : Registry) (d : Definition) : Site :=
  ⟨i, d, ⟨r, .empty⟩, d.referenced.map fun n => (n, n)⟩

theorem comp_definition_ofFiling (i : Nat) : Site.definition ∘ ofFiling i = Filing.definition := rfl

/-- The definition refers to the names of the site. A bound name is said as it is bound, and any other one up to
its case. -/
structure Faithful (s : Site) : Prop where
  referenced : ∀ n, n ∈ s.definition.referenced ↔ ∃ p ∈ s.names, p.2 = n
  bound : ∀ p ∈ s.names, ∀ v, s.environment.ctes.filed? p.1 = some v → p.2 = v
  free : ∀ p ∈ s.names, s.environment.ctes.filed? p.1 = none → upper p.2 = upper p.1

theorem faithful_ofBody {i : Nat} {env : Environment} (h : env.registry.Coherent) {ts : List Token} {d : Definition}
    (name : String) (kind : Definition.Kind)
    (hd : d.referenced = (Select.read env ts name kind).definition.referenced) : (ofBody i env ts d).Faithful where
  referenced := by
    intro n
    have hd : d.referenced = (Select.read env ts name kind).definition.referenced := hd
    rw [ofBody, hd, Select.mem_referenced_read]
    simp
  bound := by
    intro p hp v hv
    obtain ⟨m, -, rfl⟩ := List.mem_map.mp hp
    have hv : env.ctes.filed? m.table.text = some v := hv
    show env.resolve m.table.text = v
    rw [Environment.resolve, hv]
    rfl
  free := by
    intro p hp hnone
    obtain ⟨m, -, rfl⟩ := List.mem_map.mp hp
    have hnone : env.ctes.filed? m.table.text = none := hnone
    show upper (env.resolve m.table.text) = upper m.table.text
    rw [Environment.resolve, hnone]
    exact h.upper_canonicalName _

theorem faithful_ofBlock (i : Nat) (r : Registry) (d : Definition) : (ofBlock i r d).Faithful where
  referenced := by
    intro n
    simp [ofBlock]
  bound := by
    intro p hp v hv
    cases hv
  free := by
    intro p hp hnone
    obtain ⟨n, -, rfl⟩ := List.mem_map.mp hp
    rfl

/-- The sites of statement `i`, which begins with the registry `r`: common table expressions, and the definition
that the statement is about. -/
structure Series (i : Nat) (r : Registry) (ctes : List Site) (own : Site) : Prop where
  statement : ∀ s ∈ ctes ++ [own], s.statement = i
  faithful : ∀ s ∈ ctes ++ [own], s.Faithful
  cte : ∀ s ∈ ctes, s.definition.kind = .cte ∧ r.defines s.definition.name = false
  kind_own : own.definition.kind ≠ .cte
  read : ∀ before s after, ctes ++ [own] = before ++ s :: after →
    s.environment.registry = r.fileAll (before.map Site.definition)
  bound : ∀ s ∈ ctes ++ [own], ∀ n v, s.environment.ctes.filed? n = some v →
    r.defines v = false ∧ (r.fileAll (ctes.map Site.definition)).defines v = true

theorem series_ofBlock (i : Nat) (r : Registry) {d : Definition} (hd : d.kind ≠ .cte) :
    Series i r [] (ofBlock i r d) where
  statement := by simp [ofBlock]
  faithful := by
    rw [List.nil_append, List.forall_mem_singleton]
    exact faithful_ofBlock i r d
  cte := by simp
  kind_own := hd
  read := by
    intro before s after h
    cases before with
    | nil =>
      obtain ⟨rfl, -⟩ := List.cons.inj h
      rfl
    | cons b before => simp at h
  bound := by
    intro s hs n v hv
    obtain rfl := List.mem_singleton.mp hs
    cases hv

theorem series_ofQuery (i : Nat) {r : Registry} (h : r.Coherent) (q : Query) {d : Definition} (name : String)
    (kind : Definition.Kind)
    (hd : d.referenced = (Select.read (q.seen ⟨r, .empty⟩) q.mainBody name kind).definition.referenced)
    (hk : d.kind ≠ .cte) :
    Series i r ((q.filings ⟨r, .empty⟩).map (ofFiling i)) (ofBody i (q.seen ⟨r, .empty⟩) q.mainBody d) where
  statement := by
    intro s hs
    rcases List.mem_append.mp hs with hs | hs
    · obtain ⟨f, -, rfl⟩ := List.mem_map.mp hs
      rfl
    · rw [List.mem_singleton.mp hs]
      rfl
  faithful := by
    intro s hs
    rcases List.mem_append.mp hs with hs | hs
    · obtain ⟨f, hf, rfl⟩ := List.mem_map.mp hs
      obtain ⟨before, after, hsplit⟩ := List.append_of_mem hf
      have hcoh : f.environment.registry.Coherent := q.registry_of_split _ hsplit ▸ h.fileAll _
      refine faithful_ofBody hcoh f.name .cte ?_
      rw [Filing.definition, Definition.referenced_renameColumns]
    · rw [List.mem_singleton.mp hs]
      exact faithful_ofBody (q.coherent_seen h) name kind hd
  cte := by
    intro s hs
    obtain ⟨f, hf, rfl⟩ := List.mem_map.mp hs
    refine ⟨f.kind_definition, ?_⟩
    have hfree : r.defines f.name = false := q.free_of_mem_filings h f hf
    rwa [← f.name_definition] at hfree
  kind_own := hk
  read := by
    intro before s after hsplit
    rcases List.append_eq_append_iff.mp hsplit with ⟨mid, hb, hm⟩ | ⟨mid, hf, hm⟩
    · cases mid with
      | nil =>
        obtain ⟨rfl, -⟩ := List.cons.inj hm
        rw [hb, List.append_nil, List.map_map, comp_definition_ofFiling]
        exact q.registry_seen _
      | cons x mid => simp at hm
    · cases mid with
      | nil =>
        obtain ⟨rfl, -⟩ := List.cons.inj hm
        rw [List.append_nil] at hf
        rw [← hf, List.map_map, comp_definition_ofFiling]
        exact q.registry_seen _
      | cons x mid =>
        obtain ⟨rfl, -⟩ := List.cons.inj hm
        obtain ⟨l₁, l₂, hl, rfl, hl₂⟩ := List.map_eq_append_iff.mp hf
        obtain ⟨g, l₃, rfl, rfl, -⟩ := List.map_eq_cons_iff.mp hl₂
        rw [List.map_map, comp_definition_ofFiling]
        exact q.registry_of_split _ hl
  bound := by
    intro s hs n v hv
    obtain ⟨hseen, hfilings⟩ := q.mem_values ⟨r, .empty⟩
    have hmem : v ∈ (q.filings ⟨r, .empty⟩).map Filing.name := by
      have hvalue : v ∈ s.environment.ctes.names.values :=
        List.mem_map_of_mem (OrderedMap.mem_of_find? hv)
      rcases List.mem_append.mp hs with hs | hs
      · obtain ⟨f, hf, rfl⟩ := List.mem_map.mp hs
        exact (hfilings f hf v hvalue).resolve_left (by rintro ⟨⟩)
      · rw [List.mem_singleton.mp hs] at hvalue
        exact (hseen v hvalue).resolve_left (by rintro ⟨⟩)
    obtain ⟨f, hf, rfl⟩ := List.mem_map.mp hmem
    rw [List.map_map, comp_definition_ofFiling, ← f.name_definition]
    refine ⟨?_, h.defines_fileAll_of_mem (List.mem_map_of_mem hf)⟩
    rw [f.name_definition]
    exact q.free_of_mem_filings h f hf

end Site

/-! ## The sites of a statement -/

namespace Statement

def querySites (i : Nat) (r : Registry) (ts : List Token) (name : String) (kind : Definition.Kind)
    (f : Definition → Definition) : List Site :=
  let q := Query.ofTokens ts
  let seen := q.seen ⟨r, .empty⟩
  (q.filings ⟨r, .empty⟩).map (.ofFiling i) ++
    [.ofBody i seen q.mainBody (f (Select.read seen q.mainBody name kind).definition)]

/-- The sites of statement `i`, which begins with the registry `r`. -/
def sites (resultName : String) (i : Nat) (r : Registry) : Statement → List Site
  | .createTable name (.columns block) => [.ofBlock i r (block.read name).definition]
  | .createTable name (.query ts) => querySites i r ts name .table id
  | .createTable name .empty => [.ofBlock i r (.bare name .table)]
  | .createView name columns ts => querySites i r ts name .view (·.renameColumns columns)
  | .query ts => querySites i r ts (r.unusedName resultName) .view id

def textSites (resultName : String) (i : Nat) (r : Registry) (text : String) : List Site :=
  match ofTokens? (Token.scan text) with
  | some s => s.sites resultName i r
  | none => []

theorem map_definition_sites (resultName : String) (i : Nat) (r : Registry) (s : Statement) :
    (s.sites resultName i r).map Site.definition = (s.entries resultName r).map Entry.definition := by
  have hquery : ∀ (ts : List Token) (name : String) (kind : Definition.Kind) (f : Definition → Definition),
      (querySites i r ts name kind f).map Site.definition = (queryEntries r ts name kind f).map Entry.definition := by
    intro ts name kind f
    rw [querySites, queryEntries, List.map_append, List.map_append, List.map_map, List.map_map]
    rfl
  cases s with
  | createTable name body =>
    cases body with
    | columns block => rfl
    | query ts =>
      rw [sites, entries]
      exact hquery ts name .table id
    | empty => rfl
  | createView name columns ts =>
    rw [sites, entries]
    exact hquery ts name .view _
  | query ts =>
    rw [sites, entries]
    exact hquery ts _ .view id

theorem map_definition_textSites (resultName : String) (i : Nat) (r : Registry) (text : String) :
    (textSites resultName i r text).map Site.definition =
      (textEntries resultName r text).map Entry.definition := by
  unfold textSites textEntries
  cases ofTokens? (Token.scan text) with
  | none => rfl
  | some s => exact map_definition_sites resultName i r s

theorem exists_series (resultName : String) (i : Nat) {r : Registry} (h : r.Coherent) (s : Statement) :
    ∃ ctes own, s.sites resultName i r = ctes ++ [own] ∧ Site.Series i r ctes own := by
  cases s with
  | createTable name body =>
    cases body with
    | columns block => exact ⟨[], _, rfl, Site.series_ofBlock i r (by rintro ⟨⟩)⟩
    | query ts =>
      refine ⟨_, _, by rw [sites]; rfl, Site.series_ofQuery i h _ name .table rfl ?_⟩
      rw [Select.kind_read]
      rintro ⟨⟩
    | empty => exact ⟨[], _, rfl, Site.series_ofBlock i r (by rintro ⟨⟩)⟩
  | createView name columns ts =>
    refine ⟨_, _, by rw [sites]; rfl,
      Site.series_ofQuery i h _ name .view (Definition.referenced_renameColumns _ columns) ?_⟩
    rw [Definition.kind_renameColumns, Select.kind_read]
    rintro ⟨⟩
  | query ts =>
    refine ⟨_, _, by rw [sites]; rfl, Site.series_ofQuery i h _ _ .view rfl ?_⟩
    rw [Select.kind_read]
    rintro ⟨⟩

end Statement

/-! ## The sites of a script -/

namespace Script

/-- The sites of all statements, of which the first has the number `i` and begins with the registry `r`. -/
def sites (resultName : String) (i : Nat) (r : Registry) : List String → List Site
  | [] => []
  | text :: texts =>
    let ss := Statement.textSites resultName i r text
    ss ++ sites resultName (i + 1) (r.fileAll (ss.map Site.definition)) texts

theorem map_definition_sites (resultName : String) (i : Nat) (r : Registry) (texts : List String) :
    (sites resultName i r texts).map Site.definition = (entries resultName r texts).map Entry.definition := by
  induction texts generalizing i r with
  | nil => rfl
  | cons text texts ih =>
    rw [sites, entries, List.map_append, List.map_append, ih, Statement.map_definition_textSites]

theorem exists_textSeries (resultName : String) (i : Nat) {r : Registry} (h : r.Coherent) (text : String) :
    Statement.textSites resultName i r text = [] ∨
      ∃ ctes own, Statement.textSites resultName i r text = ctes ++ [own] ∧ Site.Series i r ctes own := by
  unfold Statement.textSites
  cases Statement.ofTokens? (Token.scan text) with
  | none => exact .inl rfl
  | some s => exact .inr (Statement.exists_series resultName i h s)

theorem le_statement (resultName : String) {i : Nat} {r : Registry} (h : r.Coherent) (texts : List String) :
    ∀ s ∈ sites resultName i r texts, i ≤ s.statement := by
  induction texts generalizing i r with
  | nil =>
    intro s hs
    cases hs
  | cons text texts ih =>
    intro s hs
    rcases List.mem_append.mp hs with hs | hs
    · rcases exists_textSeries resultName i h text with hnil | ⟨ctes, own, hsplit, hseries⟩
      · rw [hnil] at hs
        cases hs
      · exact Nat.le_of_eq (hseries.statement s (hsplit ▸ hs)).symm
    · exact Nat.le_of_succ_le (ih (h.fileAll _) s hs)

/-- A site among `ss`, which are filed from the registry `r` on: the sites of earlier statements, those of its own
statement in front of it and behind it, and those of later statements. -/
structure Place (r : Registry) (ss : List Site) where
  earlier : List Site
  front : List Site
  site : Site
  back : List Site
  later : List Site
  ctes : List Site
  own : Site
  split : ss = earlier ++ (front ++ site :: back) ++ later
  series_eq : front ++ site :: back = ctes ++ [own]
  series : Site.Series site.statement (r.fileAll (earlier.map Site.definition)) ctes own
  earlier_lt : ∀ x ∈ earlier, x.statement < site.statement
  lt_later : ∀ x ∈ later, site.statement < x.statement

namespace Place
variable {r : Registry} {ss : List Site}

def before (p : Place r ss) : List Site := p.earlier ++ p.front

def after (p : Place r ss) : List Site := p.back ++ p.later

theorem mem (p : Place r ss) : p.site ∈ ss := by
  have hmem : p.site ∈ p.earlier ++ (p.front ++ p.site :: p.back) ++ p.later := by simp
  exact (congrArg (p.site ∈ ·) p.split).mpr hmem

end Place

theorem exists_place {resultName : String} {i : Nat} {r : Registry} (h : r.Coherent) {texts : List String}
    {before after : List Site} {s : Site} (hsplit : sites resultName i r texts = before ++ s :: after) :
    ∃ p : Place r (sites resultName i r texts), p.before = before ∧ p.site = s ∧ p.after = after := by
  induction texts generalizing i r before with
  | nil => simp [sites] at hsplit
  | cons text texts ih =>
    have hlater : ∀ mid, before = Statement.textSites resultName i r text ++ mid →
        sites resultName (i + 1) (r.fileAll ((Statement.textSites resultName i r text).map Site.definition)) texts =
          mid ++ s :: after →
        ∃ p : Place r (sites resultName i r (text :: texts)), p.before = before ∧ p.site = s ∧ p.after = after := by
      intro mid hbefore hrest
      obtain ⟨p, rfl, rfl, rfl⟩ := ih (h.fileAll _) hrest
      refine ⟨⟨Statement.textSites resultName i r text ++ p.earlier, p.front, p.site, p.back, p.later, p.ctes, p.own,
        ?_, p.series_eq, ?_, ?_, p.lt_later⟩, ?_, rfl, rfl⟩
      · rw [List.append_assoc, List.append_assoc, ← List.append_assoc p.earlier]
        exact congrArg (Statement.textSites resultName i r text ++ ·) p.split
      · rw [List.map_append, Registry.fileAll_append]
        exact p.series
      · intro x hx
        rcases List.mem_append.mp hx with hx | hx
        · have hle := le_statement resultName (h.fileAll _) texts p.site p.mem
          rcases exists_textSeries resultName i h text with hnil | ⟨ctes, own, hsplit, hseries⟩
          · rw [hnil] at hx
            cases hx
          · rw [hseries.statement x (hsplit ▸ hx)]
            exact hle
        · exact p.earlier_lt x hx
      · rw [hbefore]
        exact List.append_assoc ..
    rcases List.append_eq_append_iff.mp hsplit with ⟨mid, hbefore, hrest⟩ | ⟨mid, htext, hrest⟩
    · exact hlater mid hbefore hrest
    · cases mid with
      | nil =>
        rw [List.append_nil] at htext
        exact hlater [] (by rw [htext, List.append_nil]) hrest.symm
      | cons x a =>
        obtain ⟨rfl, hafter⟩ := List.cons.inj hrest
        rcases exists_textSeries resultName i h text with hnil | ⟨ctes, own, hctes, hseries⟩
        · rw [hnil] at htext
          simp at htext
        · have hi : s.statement = i := hseries.statement s (by rw [← hctes, htext]; simp)
          refine ⟨⟨[], before, s, a, _, ctes, own, by rw [sites, htext]; rfl, htext.symm.trans hctes, hi ▸ hseries,
            by simp, ?_⟩, rfl, rfl, hafter.symm⟩
          intro x hx
          rw [hi]
          exact le_statement resultName (h.fileAll _) texts x hx

end Script
end SqlLineage
