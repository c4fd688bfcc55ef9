import SqlLineage.Proofs.Query.Recursion
import SqlLineage.Proofs.Script.Stubs
import SqlLineage.Proofs.Select.Sources

/-! # Common table expressions that feed themselves

In a script without `WITH RECURSIVE`, a name in the body of a common table expression that is bound or
defined there leads to something filed before, and that stays apart from the common table expression
whatever is filed or moved later. A name that is neither is only a spelling, which may become its own.

* `Statement.queryTokens`: the query of a statement is a part of its tokens.
* `Script.sound_of_split`: what a common table expression sees is what was filed before it.
* `Filing.LeadsBack`: a name in the body becomes the name of the common table expression.
* `Extraction.feeds_itself_iff`: the definition that is left of it feeds itself just in that case. -/

namespace SqlLineage
open SqlLineage.Text
set_option autoImplicit false

/-! ## The query of a statement -/

theorem Token.unwrapped_infix (ts : List Token) : unwrapped ts <:+: ts := by
  unfold unwrapped
  split
  · next t rest =>
    split
    · exact (List.dropLast_prefix rest).isInfix.trans (List.suffix_cons t rest).isInfix
    · exact List.infix_rfl
  · exact List.infix_rfl

namespace TableBody

def queryTokens : TableBody → List Token
  | .columns _ => []
  | .query ts => ts
  | .empty => []

theorem queryTokens_queryAt_infix (ts : List Token) (i : Nat) : (queryAt ts i).queryTokens <:+: ts :=
  (Token.unwrapped_infix _).trans (List.drop_suffix _ _).isInfix

theorem queryTokens_infix (ts : List Token) : (ofTokens ts).queryTokens <:+: ts := by
  unfold ofTokens
  split
  · exact ts.nil_infix
  · exact queryTokens_queryAt_infix ts _
  · split
    · split
      · exact queryTokens_queryAt_infix ts _
      · exact ts.nil_infix
    · exact ts.nil_infix
    · split
      · exact queryTokens_queryAt_infix ts _
      · exact ts.nil_infix
    · exact ts.nil_infix

end TableBody

namespace Statement

/-- The tokens of the query of a statement; none if it has no query. -/
def queryTokens : Statement → List Token
  | .createTable _ body => body.queryTokens
  | .createView _ _ ts => ts
  | .query ts => ts

theorem skipOneOf_suffix (keywords : List String) (ts : List Token) : skipOneOf keywords ts <:+ ts := by
  unfold skipOneOf
  split
  · exact List.suffix_rfl
  · split
    · exact List.suffix_cons _ _
    · exact List.suffix_rfl

theorem expect?_suffix {keyword : String} {ts us : List Token} (h : expect? keyword ts = some us) : us <:+ ts := by
  unfold expect? at h
  split at h
  · cases h
  · split at h
    · exact Option.some.inj h ▸ List.suffix_cons _ _
    · cases h

theorem skipIfNotExists_suffix (ts : List Token) : skipIfNotExists ts <:+ ts := by
  unfold skipIfNotExists
  split
  · next us h => exact ((skipOneOf_suffix _ _).trans (skipOneOf_suffix _ _)).trans (expect?_suffix h)
  · exact List.suffix_rfl

theorem skipOrReplace_suffix (ts : List Token) : skipOrReplace ts <:+ ts := by
  unfold skipOrReplace
  split
  · next us h => exact (skipOneOf_suffix _ _).trans (expect?_suffix h)
  · exact List.suffix_rfl

theorem name?_suffix {ts : List Token} {n : String × List Token} (h : name? ts = some n) : n.2 <:+ ts := by
  obtain ⟨q, -, rfl⟩ := Option.map_eq_some_iff.mp h
  exact (List.drop_suffix _ _).trans (skipIfNotExists_suffix ts)

theorem queryTokens_of_viewOf? {name : String} {ts : List Token} {s : Statement} (h : viewOf? name ts = some s) :
    s.queryTokens <:+: ts := by
  unfold viewOf? at h
  split at h
  · cases h
  · obtain ⟨us, hus, rfl⟩ := Option.map_eq_some_iff.mp h
    obtain ⟨p, -, rfl⟩ := Option.map_eq_some_iff.mp hus
    exact (Token.unwrapped_infix _).trans ((List.drop_suffix _ _).trans (List.drop_suffix _ _)).isInfix

theorem queryTokens_of_create? {ts : List Token} {s : Statement} (h : ofCreate? ts = some s) :
    s.queryTokens <:+: ts := by
  have hhead : skipOneOf storageWords (skipOneOf ["GLOBAL", "LOCAL"] (skipOrReplace ts)) <:+ ts :=
    ((skipOneOf_suffix _ _).trans (skipOneOf_suffix _ _)).trans (skipOrReplace_suffix ts)
  unfold ofCreate? at h
  dsimp only at h
  split at h
  · next us hus =>
    obtain ⟨n, hn, rfl⟩ := Option.map_eq_some_iff.mp h
    exact (TableBody.queryTokens_infix n.2).trans
      (((name?_suffix hn).trans (expect?_suffix hus)).trans hhead).isInfix
  · split at h
    · next us hus =>
      obtain ⟨n, hn, hv⟩ := Option.bind_eq_some_iff.mp h
      have hview := ((skipOneOf_suffix ["MATERIALIZED"] _).trans (skipOneOf_suffix ["SECURE", "RECURSIVE"] _)).trans
        hhead
      exact (queryTokens_of_viewOf? hv).trans (((name?_suffix hn).trans (expect?_suffix hus)).trans hview).isInfix
    · cases h

theorem queryTokens_infix {ts : List Token} {s : Statement} (h : ofTokens? ts = some s) :
    s.queryTokens <:+: ts := by
  unfold ofTokens? at h
  split at h
  · cases h
  · next t rest =>
    split at h
    · exact (queryTokens_of_create? h).trans (List.suffix_cons t rest).isInfix
    · split at h
      · obtain rfl := Option.some.inj h
        exact List.infix_rfl
      · cases h

/-! ## Entries of a statement -/

/-- A statement files the common table expressions of its query, and then its own definition. -/
theorem entries_eq (resultName : String) (r : Registry) (s : Statement) :
    ∃ d : Definition, d.kind ≠ .cte ∧ s.entries resultName r =
      ((Query.ofTokens s.queryTokens).filings ⟨r, .empty⟩).map .cte ++ [.declared d] := by
  have hnone : (Query.ofTokens []).filings ⟨r, .empty⟩ = [] := by
    simp [Query.ofTokens, Query.filings]
  cases s with
  | createTable name body =>
    cases body with
    | columns block =>
      refine ⟨(block.read name).definition, by rintro ⟨⟩, ?_⟩
      rw [queryTokens, TableBody.queryTokens, hnone]
      rfl
    | query ts =>
      refine ⟨_, ?_, by rw [entries]; rfl⟩
      rw [id, Select.kind_read]
      rintro ⟨⟩
    | empty =>
      refine ⟨.bare name .table, by rintro ⟨⟩, ?_⟩
      rw [queryTokens, TableBody.queryTokens, hnone]
      rfl
  | createView name columns ts =>
    refine ⟨_, ?_, by rw [entries]; rfl⟩
    rw [Definition.kind_renameColumns, Select.kind_read]
    rintro ⟨⟩
  | query ts =>
    refine ⟨_, ?_, by rw [entries]; rfl⟩
    rw [id, Select.kind_read]
    rintro ⟨⟩

theorem textEntries_eq (resultName : String) (r : Registry) (text : String) :
    textEntries resultName r text = [] ∨ ∃ (ts : List Token) (d : Definition),
      ts <:+: Token.scan text ∧ d.kind ≠ .cte ∧ textEntries resultName r text =
        ((Query.ofTokens ts).filings ⟨r, .empty⟩).map .cte ++ [.declared d] := by
  unfold textEntries
  cases hs : ofTokens? (Token.scan text) with
  | none => exact .inl rfl
  | some s =>
    obtain ⟨d, hk, he⟩ := entries_eq resultName r s
    exact .inr ⟨s.queryTokens, d, queryTokens_infix hs, hk, he⟩

end Statement

theorem Query.registry_of_entries_split {q : Query} {env : Environment} {d : Definition}
    {before after : List Entry} {f : Filing}
    (h : (q.filings env).map Entry.cte ++ [.declared d] = before ++ .cte f :: after) :
    f ∈ q.filings env ∧ f.environment.registry = env.registry.fileAll (before.map Entry.definition) := by
  rcases List.append_eq_append_iff.mp h with ⟨mid, -, hm⟩ | ⟨mid, hf, hm⟩
  · cases mid with
    | nil => simp at hm
    | cons e mid => simp at hm
  · cases mid with
    | nil => simp at hm
    | cons e mid =>
      obtain ⟨rfl, -⟩ := List.cons.inj hm
      obtain ⟨l₁, l₂, hl, rfl, hl₂⟩ := List.map_eq_append_iff.mp hf
      obtain ⟨g, l₃, rfl, hg, -⟩ := List.map_eq_cons_iff.mp hl₂
      obtain rfl := Entry.cte.inj hg
      refine ⟨by rw [hl]; simp, ?_⟩
      rw [List.map_map, Entry.comp_definition_cte]
      exact q.registry_of_split env hl

/-! ## Entries of a script -/

namespace Script

theorem kind_of_declared_mem {resultName : String} {r : Registry} {texts : List String} {d : Definition}
    (h : .declared d ∈ entries resultName r texts) : d.kind ≠ .cte := by
  induction texts generalizing r with
  | nil => cases h
  | cons text texts ih =>
    rcases List.mem_append.mp h with h | h
    · rcases Statement.textEntries_eq resultName r text with he | ⟨ts, d', -, hk, he⟩
      · rw [he] at h
        cases h
      · rw [he] at h
        rcases List.mem_append.mp h with h | h
        · obtain ⟨f, -, hf⟩ := List.mem_map.mp h
          cases hf
        · obtain rfl := Entry.declared.inj (List.mem_singleton.mp h)
          exact hk
    · exact ih h

/-- A common table expression sees what was filed before it, and the names bound there lead to some of
that. -/
theorem sound_of_split {resultName : String} {r : Registry} (hr : r.Coherent) {texts : List String}
    (h : ∀ text ∈ texts, Token.bindsRecursively (Token.scan text) = false) {before later : List Entry}
    {f : Filing} (he : entries resultName r texts = before ++ .cte f :: later) :
    f.environment.Sound ∧ f.environment.registry = r.fileAll (before.map Entry.definition) := by
  induction texts generalizing r before with
  | nil => simp [entries] at he
  | cons text texts ih =>
    obtain ⟨htext, htexts⟩ := List.forall_mem_cons.mp h
    have hown : ∀ {mid}, Statement.textEntries resultName r text = before ++ .cte f :: mid →
        f.environment.Sound ∧ f.environment.registry = r.fileAll (before.map Entry.definition) := by
      intro mid hmid
      rcases Statement.textEntries_eq resultName r text with hnil | ⟨ts, d, hts, -, hd⟩
      · rw [hnil] at hmid
        simp at hmid
      · obtain ⟨hf, hreg⟩ := Query.registry_of_entries_split (hd ▸ hmid)
        have hheads := Query.recursive_of_mem_heads (Token.bindsRecursively_of_infix hts htext)
        exact ⟨((Query.ofTokens ts).sound_of_not_recursive (Environment.sound_empty hr) hheads).2 f hf, hreg⟩
    rw [entries] at he
    -- `f` belongs to a later statement or to the first one
    rcases List.append_eq_append_iff.mp he with ⟨mid, rfl, hm⟩ | ⟨mid, hb, hm⟩
    · rw [List.map_append, Registry.fileAll_append]
      exact ih (hr.fileAll _) htexts hm
    · cases mid with
      | nil =>
        rw [List.append_nil] at hb
        have hfirst : entries resultName (r.fileAll ((Statement.textEntries resultName r text).map
            Entry.definition)) texts = [] ++ .cte f :: later := hm.symm
        rw [← hb]
        exact ih (hr.fileAll _) htexts hfirst
      | cons e mid =>
        obtain ⟨rfl, -⟩ := List.cons.inj hm
        exact hown hb

end Script

/-! ## Where a common table expression leads -/

namespace Filing

def tables (f : Filing) : List String :=
  (Select.mentions f.body).map (·.table.text)

/-- How a name of the definition is spelled behind all later entries. -/
def spelling (f : Filing) (later : List Entry) : String → String :=
  f.after.registry.respell (later.map Entry.definition)

/-- A table of the body ends up under the name of the common table expression. Only a name that is not
known in the body can do so, or any if a nested common table expression has taken the name before. -/
def LeadsBack (f : Filing) (later : List Entry) : Prop :=
  ∃ t ∈ f.tables, (¬ f.environment.Knows t ∨ f.environment.registry.defines f.name = true) ∧
    upper (f.spelling later (f.environment.resolve t)) = upper (f.spelling later f.name)

theorem mem_referenced_definition {f : Filing} {n : String} :
    n ∈ f.definition.referenced ↔ ∃ t ∈ f.tables, f.environment.resolve t = n := by
  have hrename : f.definition.referenced =
      (Select.read f.environment f.body f.name .cte).definition.referenced := by
    unfold definition
    rw [Definition.referenced_renameColumns]
  rw [hrename, Select.mem_referenced_read]
  simp [tables]

/-- A known name never becomes the name of the common table expression, if that was free. -/
theorem upper_spelling_ne {f : Filing} (h : f.environment.Sound) {later : List Entry}
    (hfree : f.environment.registry.defines f.name = false)
    (hk : f.after.registry.Keeps (f.environment.registry.define f.definition).slot (later.map Entry.definition))
    {t : String} (ht : f.environment.Knows t) :
    upper (f.spelling later (f.environment.resolve t)) ≠ upper (f.spelling later f.name) := by
  have hcoh := h.coherent
  obtain ⟨e, he, hen⟩ := hcoh.defines_iff.mp (h.defines_resolve ht)
  obtain ⟨j, hj⟩ := List.mem_iff_getElem?.mp he
  have hne : upper e.name ≠ upper f.definition.name := by
    rw [f.name_definition]
    exact hcoh.defines_eq_false_iff.mp hfree e he
  -- the table stays in slot `j`, which is not the one of the common table expression
  obtain ⟨hjs, e', he', hname⟩ := hcoh.stays_define hj hne
  have hown := hcoh.getElem?_define f.definition (f.environment.registry.define f.definition).slot
  rw [if_pos rfl] at hown
  have hheld : upper e'.name = upper (f.environment.resolve t) := by rw [hname, hen]
  have hapart := hk.upper_respell_ne (hcoh.define _) hown he' hjs hheld
  rw [Definition.name_mapReferenced, f.name_definition] at hapart
  exact hapart

end Filing

namespace Script

/-- A common table expression that is left behind a list of entries is the last one that was filed into
its slot, under later spellings. -/
theorem last_cte {es : List Entry} (hdecl : ∀ d, .declared d ∈ es → d.kind ≠ .cte) {D : Definition}
    (hD : D ∈ (Registry.empty.fileAll (es.map Entry.definition)).slots) (hk : D.kind = .cte) :
    ∃ before f later, es = before ++ .cte f :: later ∧
      (∀ r, Registry.empty.fileAll (before.map Entry.definition) = r →
        (r.define f.definition).registry.Keeps (r.define f.definition).slot (later.map Entry.definition) ∧
        D = f.definition.respelled ((r.define f.definition).registry.respell (later.map Entry.definition))) := by
  obtain ⟨i, hi⟩ := List.mem_iff_getElem?.mp hD
  have hempty := Registry.coherent_empty
  -- the first registry is empty, so the slot was filled by some entry
  rcases Registry.last_filing i (es.map Entry.definition) with hkeeps | ⟨bs, d, ls, hsplit, hslot, hkeeps⟩
  · rw [hkeeps.getElem?_fileAll hempty] at hi
    simp [Registry.empty] at hi
  · obtain ⟨before, rest, rfl, rfl, hrest⟩ := List.map_eq_append_iff.mp hsplit
    obtain ⟨e, later, rfl, rfl, rfl⟩ := List.map_eq_cons_iff.mp hrest
    have hcoh := hempty.fileAll (before.map Entry.definition)
    have hown := hcoh.getElem?_define e.definition i
    rw [if_pos hslot.symm] at hown
    rw [hsplit, Registry.fileAll_append, Registry.fileAll_cons, hkeeps.getElem?_fileAll (hcoh.define _), hown,
      Option.map_some, Option.some.injEq] at hi
    cases e with
    | declared d =>
      rw [← hi] at hk
      exact absurd hk (hdecl d (by simp))
    | cte f =>
      refine ⟨before, f, later, rfl, ?_⟩
      rintro r rfl
      rw [Entry.definition_cte] at hslot hi hkeeps
      rw [hslot]
      refine ⟨hkeeps, ?_⟩
      rw [← hi, Registry.respellOne_of_cte f.kind_definition, Definition.mapReferenced_id]

end Script

/-- In a script without `WITH RECURSIVE`, every common table expression of the result is what became of
one that was filed, and it feeds itself just when that one leads back: one of its tables was neither bound
nor defined where it was read and came to be spelled like it, or a nested common table expression had its
name. -/
theorem Extraction.feeds_itself_iff {script resultName : String}
    (h : ∀ text ∈ Script.statements (Comment.strip script), Token.bindsRecursively (Token.scan text) = false)
    {D : Definition} (hD : D ∈ (ofScript script resultName).definitions) (hk : D.kind = .cte) :
    ∃ before f later,
      Script.entries resultName .empty (Script.statements (Comment.strip script)) = before ++ .cte f :: later ∧
      D = (f.definition.respelled (f.spelling later)).mapReferenced
        (Inventory.ofStatements resultName (Script.statements (Comment.strip script))).stubbed.canonicalName ∧
      (D.name ∈ D.referenced ↔ f.LeadsBack later) := by
  have hcoh := Inventory.coherent_ofStatements resultName (Script.statements (Comment.strip script))
  rw [ofScript, Inventory.definitions_finish, Inventory.slots_inferStubs hcoh] at hD
  obtain ⟨D₀, hD₀, rfl⟩ := List.mem_map.mp hD
  rw [Definition.kind_mapReferenced] at hk
  have hfiled : D₀ ∈ (Inventory.ofStatements resultName
      (Script.statements (Comment.strip script))).registry.slots := by
    rcases List.mem_append.mp hD₀ with hd | hd
    · exact hd
    · obtain ⟨name, -, rfl⟩ := List.mem_map.mp hd
      cases hk
  have hlast := hfiled
  rw [Inventory.registry_ofStatements] at hlast
  obtain ⟨before, f, later, hsplit, hfinal⟩ :=
    Script.last_cte (fun d hd => Script.kind_of_declared_mem hd) hlast hk
  obtain ⟨hsound, hreg⟩ := Script.sound_of_split Registry.coherent_empty h hsplit
  obtain ⟨hkeeps, hrespelled⟩ := hfinal _ hreg.symm
  refine ⟨before, f, later, hsplit, congrArg _ hrespelled, ?_⟩
  rw [Definition.name_mapReferenced, Inventory.refers_to_itself_iff hcoh hfiled, hrespelled,
    Definition.referenced_respelled, Definition.name_respelled, f.name_definition]
  constructor
  · rintro ⟨m, hm, hmn⟩
    obtain ⟨n, hn, rfl⟩ := List.mem_map.mp hm
    obtain ⟨t, ht, rfl⟩ := Filing.mem_referenced_definition.mp hn
    refine ⟨t, ht, ?_, hmn⟩
    by_contra hno
    rw [not_or, not_not, Bool.not_eq_true] at hno
    exact Filing.upper_spelling_ne hsound hno.2 hkeeps hno.1 hmn
  · rintro ⟨t, ht, -, htn⟩
    exact ⟨_, List.mem_map_of_mem (Filing.mem_referenced_definition.mpr ⟨t, ht, rfl⟩), htn⟩

theorem Extraction.feeds_itself_iff_declared :
    let script := "CREATE TABLE a (x INT); WITH a AS (SELECT a.x FROM a) SELECT a.x FROM a"
    let texts := Script.statements (Comment.strip script)
    let D : Definition := ⟨"a 2", .cte, [.mapped "x"], [.uses "a"], [⟨"a", "x", "x", false⟩]⟩
    (∀ text ∈ texts, Token.bindsRecursively (Token.scan text) = false) ∧
    D ∈ (ofScript script "Query Result").definitions ∧ D.kind = .cte ∧
    ∃ before f later, Script.entries "Query Result" .empty texts = before ++ .cte f :: later ∧
      D = (f.definition.respelled (f.spelling later)).mapReferenced
        (Inventory.ofStatements "Query Result" texts).stubbed.canonicalName ∧
      (D.name ∈ D.referenced ↔ f.LeadsBack later) := by
  intro script texts D
  have h : ∀ text ∈ texts, Token.bindsRecursively (Token.scan text) = false := by decide +kernel
  have hD : D ∈ (ofScript script "Query Result").definitions := by decide +kernel
  exact ⟨h, hD, rfl, feeds_itself_iff h hD rfl⟩

/-- A common table expression that reads a table of its own name, which is defined nowhere, is taken for
that table. -/
theorem Extraction.feeds_itself_undeclared :
    let script := "WITH a AS (SELECT a.x FROM a) SELECT a.x FROM a"
    (∀ text ∈ Script.statements (Comment.strip script), Token.bindsRecursively (Token.scan text) = false) ∧
      ∃ D ∈ (ofScript script "Query Result").definitions, D.kind = .cte ∧ D.name ∈ D.referenced := by
  decide +kernel

end SqlLineage
